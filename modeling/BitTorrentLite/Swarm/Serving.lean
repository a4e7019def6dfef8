import BitTorrentLite.Swarm.System

/-! # Where a Served Block Comes From

    A block that a thread is about to send was read by `get_block`, for the
    same request, in an earlier state of the run; and the request is one the
    thread accepted. So what is known of the accepted Requests and of the
    answers of `get_block` is known of every Piece message.
-/

open Machine LTS

namespace BitTorrentLite

/-! ## Accepted Requests -/

/-- The Request messages that the handler accepts meet `P`. -/
def Swarm.AcceptsOnly (P : IncomingRequest → Prop) (s : Swarm) : Action → Prop
  | .thread id (.recv (some ⟨.Request, payload⟩)) => ∀ t, s.threads id = some t →
    12 ≤ payload.length → t.state.am_choking = false →
      P ⟨ntohl payload 0, ntohl payload 4, ntohl payload 8⟩
  | _ => True

/-- The requests at the point a thread has come to. -/
def PC.requests : PC → List IncomingRequest
  | .serve kept req rest _ => kept ++ req :: rest
  | .send_piece kept req rest _ _ => kept ++ req :: rest
  | _ => []

section moves

variable {sha1 : Bytes → Bytes} {c c' : Controller} {id : ℕ} {st st' : PeerState} {pc pc' : PC}
  {inp : Input} {P : IncomingRequest → Prop}

/-- Every request a thread holds meets `P`. -/
structure Thread.Holds (P : IncomingRequest → Prop) (t : Thread) : Prop where
  incoming : ∀ req ∈ t.state.incoming_requests, P req
  serving : ∀ req ∈ t.pc.requests, P req

/-- A point of the loop at which no request is being served. -/
theorem holds_of_no_requests (h : ∀ req ∈ st.incoming_requests, P req) (hpc : pc.requests = []) :
    Thread.Holds P ⟨st, pc⟩ :=
  ⟨h, fun req hreq => by rw [hpc] at hreq; cases hreq⟩

theorem holds_serve_next {kept rest : List IncomingRequest} {call : ServeCall}
    (h : ∀ req ∈ st.incoming_requests, P req) (hlist : ∀ req ∈ kept ++ rest, P req) :
    Thread.Holds P ⟨st, serve_next kept call rest⟩ := by
  cases rest with
  | nil => cases call <;> exact holds_of_no_requests h rfl
  | cons req rest => exact ⟨h, hlist⟩

theorem holds_serve {call : ServeCall} (h : ∀ req ∈ st.incoming_requests, P req) :
    Thread.Holds P ⟨st, serve_incoming_requests st call⟩ := by
  unfold serve_incoming_requests
  split
  · cases call <;> exact holds_of_no_requests h rfl
  · exact holds_serve_next h h

theorem holds_flush {haves : List ℤ} (h : ∀ req ∈ st.incoming_requests, P req) :
    Thread.Holds P ⟨st, flush_next st haves⟩ := by
  cases haves with
  | nil => exact holds_serve h
  | cons piece rest => exact holds_of_no_requests h rfl

/-- **Step lemma**: a thread that accepts only such requests holds only such. -/
theorem Move.holds (h : Move sha1 c id st pc inp c' st' pc')
    (hok : ∀ payload, inp = .recv (some ⟨.Request, payload⟩) → 12 ≤ payload.length →
      st.am_choking = false → P ⟨ntohl payload 0, ntohl payload 4, ntohl payload 8⟩)
    (ht : Thread.Holds P ⟨st, pc⟩) : Thread.Holds P ⟨st', pc'⟩ := by
  obtain ⟨hin, hserving⟩ := ht
  cases h
  case drained => exact holds_flush hin
  case have_sent => exact holds_flush hin
  case have_unsent => exact holds_serve hin
  case unchoke_sent => exact holds_serve hin
  case passed_over kept req rest call _ =>
    refine holds_serve_next hin fun r hr => hserving r ?_
    rwa [List.append_assoc] at hr
  case fetched kept req rest call block _ _ => exact ⟨hin, hserving⟩
  case piece_sent kept req rest block call =>
    have hleft : ∀ r ∈ kept ++ rest, P r := by
      intro r hr
      refine hserving r ?_
      rcases List.mem_append.mp hr with hr | hr
      · exact List.mem_append_left _ hr
      · exact List.mem_append_right _ (List.mem_cons_of_mem _ hr)
    exact holds_serve_next hleft hleft
  case piece_unsent kept req rest block call =>
    cases call <;> exact holds_of_no_requests hin rfl
  case got_request p hlen hchoking hst' =>
    subst hst'
    refine holds_serve fun r hr => ?_
    rcases List.mem_append.mp hr with hr | hr
    · exact hin r hr
    · rw [List.mem_singleton.mp hr]
      exact hok p rfl hlen hchoking
  case got_cancel => exact holds_of_no_requests (fun r hr => hin r (List.mem_filter.mp hr).1) rfl
  -- the other jumps lead to points where nothing is served
  case shaken ok =>
    cases ok with
    | true => exact holds_of_no_requests hin rfl
    | false => exact holds_of_no_requests hin (leave_cases rfl fun _ _ => rfl)
  case bitfield_sent => exact holds_of_no_requests hin (by split <;> rfl)
  case got_bitfield => exact holds_of_no_requests hin (by split <;> rfl)
  case bitfield_stored => exact holds_of_no_requests hin (by split <;> rfl)
  case finished => exact holds_of_no_requests hin (leave_cases rfl fun _ _ => rfl)
  case disconnected => exact holds_of_no_requests hin (leave_cases rfl fun _ _ => rfl)
  case got_choke => exact holds_of_no_requests hin (choke_next_cases rfl fun _ _ => rfl)
  case got_unchoke => exact holds_of_no_requests hin (request_next_blocks_cases rfl rfl)
  case got_have => exact holds_of_no_requests hin (have_next_cases rfl rfl)
  case got_have_beyond => exact holds_of_no_requests hin (have_next_cases rfl rfl)
  case block_received => exact holds_of_no_requests hin (request_next_blocks_cases rfl rfl)
  case request_sent req hst' =>
    subst hst'
    exact holds_of_no_requests hin (request_loop_cases rfl rfl)
  all_goals exact holds_of_no_requests hin rfl

/-- The block a thread is about to send, and the request it answers. -/
def PC.reply : PC → Option (IncomingRequest × Bytes)
  | .send_piece _ req _ block _ => some (req, block)
  | _ => none

/-- Only `get_block` leads to sending a block. -/
theorem Move.reply_cases (h : Move sha1 c id st pc inp c' st' pc') :
    pc'.reply = none ∨ ∃ req block, pc'.reply = some (req, block) ∧
      c.get_block req.piece_index req.block_offset = .ok block ∧ block ≠ [] := by
  cases h
  case fetched kept req rest call block hget hne => exact .inr ⟨req, block, rfl, hget, hne⟩
  all_goals refine .inl ?_
  case shaken ok =>
    cases ok with
    | true => rfl
    | false => exact leave_cases rfl fun _ _ => rfl
  case bitfield_sent => split <;> rfl
  case got_bitfield => split <;> rfl
  case bitfield_stored => split <;> rfl
  case finished => exact leave_cases rfl fun _ _ => rfl
  case disconnected => exact leave_cases rfl fun _ _ => rfl
  case drained => exact flush_cases rfl rfl (fun _ _ => rfl) fun _ _ => rfl
  case have_sent => exact flush_cases rfl rfl (fun _ _ => rfl) fun _ _ => rfl
  case have_unsent => exact serve_cases rfl rfl fun _ _ => rfl
  case unchoke_sent => exact serve_cases rfl rfl fun _ _ => rfl
  case got_request => exact serve_cases rfl rfl fun _ _ => rfl
  case passed_over => exact serve_next_cases rfl rfl fun _ _ => rfl
  case piece_sent => exact serve_next_cases rfl rfl fun _ _ => rfl
  case piece_unsent call => exact call_cases call rfl rfl
  case got_choke => exact choke_next_cases rfl fun _ _ => rfl
  case got_unchoke => exact request_next_blocks_cases rfl rfl
  case got_have => exact have_next_cases rfl rfl
  case got_have_beyond => exact have_next_cases rfl rfl
  case block_received => exact request_next_blocks_cases rfl rfl
  case request_sent => exact request_loop_cases rfl rfl
  all_goals rfl

/-- A block that is about to be sent has just been read. -/
theorem Move.reply_read (h : Move sha1 c id st pc inp c' st' pc') {req : IncomingRequest}
    {block : Bytes} (hreply : pc'.reply = some (req, block)) :
    c.get_block req.piece_index req.block_offset = .ok block ∧ block ≠ [] := by
  rcases h.reply_cases with hnone | ⟨req', block', hsome, hread⟩
  · rw [hnone] at hreply
    cases hreply
  · obtain ⟨rfl, rfl⟩ := Prod.mk.inj (Option.some.inj (hsome.symm.trans hreply))
    exact hread

end moves

/-! ## The Origin of a Block -/

namespace Swarm

variable {sha1 : Bytes → Bytes} {m : Metadata} {disk : Option Bytes} {s s' : Swarm}
  {P : IncomingRequest → Prop}

/-- The runs in which only Requests that meet `P` are accepted. -/
def serving (sha1 : Bytes → Bytes) (m : Metadata) (disk : Option Bytes)
    (P : IncomingRequest → Prop) : System Swarm Action :=
  (system sha1 m disk).restrict (AcceptsOnly P)

/-- The block was read for the request in a state from which the run led here. -/
def ReadBefore (sys : System Swarm Action) (s : Swarm) (req : IncomingRequest) (block : Bytes) :
    Prop :=
  ∃ s₀ ls, sys.Reachable s₀ ∧ sys.Path s₀ ls s ∧
    s₀.ctl.get_block req.piece_index req.block_offset = .ok block ∧ block ≠ []

theorem ReadBefore.step {sys : System Swarm Action} {a : Action} {req : IncomingRequest}
    {block : Bytes} (h : ReadBefore sys s req block) (hst : sys.step s a s') :
    ReadBefore sys s' req block := by
  obtain ⟨s₀, ls, hr, hpath, hget⟩ := h
  exact ⟨s₀, ls ++ [a], hr, hpath.snoc hst, hget⟩

/-- What holds of the blocks about to be sent. -/
structure Served (sys : System Swarm Action) (P : IncomingRequest → Prop) (s : Swarm) : Prop where
  holds : ∀ id t, s.threads id = some t → t.Holds P
  read : ∀ id st kept req rest block call,
    s.threads id = some ⟨st, .send_piece kept req rest block call⟩ → ReadBefore sys s req block

theorem Served.stepped {a : Action} (hr : (serving sha1 m disk P).Reachable s)
    (h : Served (serving sha1 m disk P) P s) (hst : (serving sha1 m disk P).step s a s') :
    Served (serving sha1 m disk P) P s' := by
  obtain ⟨hok, hnext⟩ := hst
  cases next_stepped hnext with
  | connected =>
    refine ⟨fun id t ht => ?_, fun id st kept req rest block call ht => ?_⟩
    · rcases resume_threads ht with ⟨-, rfl⟩ | ⟨-, ht⟩
      · exact holds_of_no_requests (fun _ hreq => by cases hreq) rfl
      · exact h.holds id t ht
    · rcases resume_threads ht with ⟨-, heq⟩ | ⟨-, ht⟩
      · cases heq
      · exact (h.read id st kept req rest block call ht).step ⟨hok, hnext⟩
  | moved id inp t t' c' ht₀ hmove =>
    refine ⟨fun id' t₁ ht => ?_, fun id' st kept req rest block call ht => ?_⟩
    · rcases resume_threads ht with ⟨-, rfl⟩ | ⟨-, ht⟩
      · refine hmove.holds (fun payload hinp hlen hchoking => ?_) (h.holds id t ht₀)
        subst hinp
        exact hok t ht₀ hlen hchoking
      · exact h.holds id' t₁ ht
    · rcases resume_threads ht with ⟨-, rfl⟩ | ⟨-, ht⟩
      · -- the one move that leads to sending a block is the one that read it
        exact ReadBefore.step ⟨s, [], hr, .nil s, hmove.reply_read rfl⟩ ⟨hok, hnext⟩
      · exact (h.read id' st kept req rest block call ht).step ⟨hok, hnext⟩

/-- **Run lemma**: in every reachable state. -/
theorem reachable_served (h : (serving sha1 m disk P).Reachable s) :
    Served (serving sha1 m disk P) P s := by
  induction h with
  | init h0 =>
    have h0 : _ = start m disk := h0
    subst h0
    exact ⟨fun _ _ ht => (nomatch ht), fun _ _ _ _ _ _ _ ht => (nomatch ht)⟩
  | step hr hst ih => exact ih.stepped hr hst

/-- **Origin of a Piece message**: the block a thread is about to send was read
    for an accepted request. -/
theorem reply_read_before (h : (serving sha1 m disk P).Reachable s) {id : ℕ} {st : PeerState}
    {kept rest : List IncomingRequest} {req : IncomingRequest} {block : Bytes} {call : ServeCall}
    (ht : s.threads id = some ⟨st, .send_piece kept req rest block call⟩) :
    P req ∧ ReadBefore (serving sha1 m disk P) s req block := by
  have hserved := reachable_served h
  exact ⟨(hserved.holds id _ ht).serving req (by simp [PC.requests]),
    hserved.read id st kept req rest block call ht⟩

end Swarm

end BitTorrentLite
