import BitTorrentLite.Network.Fetching
import BitTorrentLite.Network.Clients
import BitTorrentLite.TwoParty.Deadlock

/-! # A Connection to a Seeder

    What links a thread of a leecher and the thread of a seeder it is connected
    to, whatever the other threads of either client do. The leecher asks once
    it was unchoked, and declines for good when it finds nothing to ask for
    after the Bitfield; the seeder chokes only a thread that has declined.
-/

open Machine LTS

namespace BitTorrentLite

open Controller

/-! ## The Seeder -/

/-- What holds at a seeder, whatever its threads do: it has the file, and
    nothing to announce. -/
structure Controller.Supplies (F : Bytes) (c : Controller) : Prop where
  seeding : c.Seeding F
  no_haves : ∀ id, (c.send_haves id).getD [] = []

/-- The Bitfield handler of a leecher, after `next_request`. -/
def PC.Probes : PC → Prop
  | .bitfield_release _ => True
  | .bitfield_store _ => True
  | _ => False

section supplies

variable {sha1 : Bytes → Bytes} {m : Metadata} {F : Bytes} {c c' : Controller} {peer_id : ℕ}
  {st st' : PeerState} {pc pc' : PC} {inp : Input}

theorem Move.not_probes (h : Move sha1 c peer_id st pc inp c' st' pc') (hs : c.mode = .SEEDER)
    (hpc : ¬ pc.Probes) : ¬ pc'.Probes := by
  have hnot : c.mode ≠ .LEECHER := by
    rw [hs]
    decide
  cases h
  case bitfield_some hl _ _ => exact absurd hl hnot
  case bitfield_released => exact absurd trivial hpc
  case shaken => split <;> first | exact id | exact leave_cases id fun _ _ => id
  case bitfield_sent => split <;> exact id
  case finished => exact leave_cases id fun _ _ => id
  case disconnected => exact leave_cases id fun _ _ => id
  case drained => exact flush_cases id id (fun _ _ => id) fun _ _ => id
  case have_sent => exact flush_cases id id (fun _ _ => id) fun _ _ => id
  case have_unsent => exact serve_cases id id fun _ _ => id
  case unchoke_sent => exact serve_cases id id fun _ _ => id
  case got_request => exact serve_cases id id fun _ _ => id
  case passed_over => exact serve_next_cases id id fun _ _ => id
  case piece_sent => exact serve_next_cases id id fun _ _ => id
  case piece_unsent call => exact call_cases call id id
  case got_choke => exact choke_next_cases id fun _ _ => id
  case got_unchoke => exact request_next_blocks_cases id id
  case got_have => exact have_next_cases id id
  case got_have_beyond => exact have_next_cases id id
  case got_bitfield => split <;> exact id
  case request_sent => exact request_loop_cases id id
  case bitfield_stored => split <;> exact id
  case block_received => exact request_next_blocks_cases id id
  all_goals exact id

theorem Move.supplies (h : Move sha1 c peer_id st pc inp c' st' pc') (hs : c.mode = .SEEDER)
    (hpc : ¬ pc.Probes) (hc : c.Supplies F) : c'.Supplies F := by
  have hnot : c.mode ≠ .LEECHER := by
    rw [hs]
    decide
  obtain ⟨hseed, hnone⟩ := hc
  have queue {q : ℕ → Option (List ℤ)} {old : Option (List ℤ)}
      (hq : q = Function.update c.send_haves peer_id old) (hold : old.getD [] = []) (id : ℕ) :
      (q id).getD [] = [] := by
    rw [hq]
    by_cases hid : id = peer_id
    · rw [hid, Function.update_self]
      exact hold
    · rw [Function.update_of_ne hid]
      exact hnone id
  cases h
  case drained => exact ⟨⟨hseed.file, hseed.done⟩, queue rfl rfl⟩
  case unregistered => exact ⟨⟨hseed.file, hseed.done⟩, queue rfl rfl⟩
  case request_some hl _ _ => exact absurd hl hnot
  case have_some hl _ _ => exact absurd hl hnot
  case bitfield_some hl _ _ => exact absurd hl hnot
  case bitfield_stored => exact absurd trivial hpc
  case block_received hrec =>
    rw [hrec.seeder hs]
    exact ⟨hseed, hnone⟩
  all_goals exact ⟨⟨hseed.file, hseed.done⟩, hnone⟩

namespace Swarm

variable {s : Swarm}

/-- **Run lemma**: a seeder keeps its file and its statuses, and announces
    nothing, whatever its peers send. -/
theorem reachable_supplies (hs : m.mode = .SEEDER)
    (h : (system sha1 m (some F)).Reachable s) : s.ctl.Supplies F := by
  refine (System.invariant (I := fun s : Swarm => s.ctl.Supplies F ∧
    ∀ id t, s.threads id = some t → ¬ t.pc.Probes) ?_ ?_ s h).1
  · intro s hstart
    obtain rfl : s = start m (some F) := hstart
    refine ⟨⟨seeding_make hs F, fun _ => rfl⟩, ?_⟩
    intro id t ht
    cases ht
  · intro s a s' hr hsupply hst
    obtain ⟨hc, hthreads⟩ := hsupply
    have hmode : s.ctl.mode = .SEEDER := by
      rw [reachable_toMetadata hr]
      exact hs
    cases next_stepped hst with
    | connected =>
      refine ⟨⟨⟨hc.seeding.file, hc.seeding.done⟩, ?_⟩, ?_⟩
      · intro id
        show (Function.update s.ctl.send_haves s.ctl.crnt_peer (some []) id).getD [] = []
        by_cases hid : id = s.ctl.crnt_peer
        · rw [hid, Function.update_self]
          rfl
        · rw [Function.update_of_ne hid]
          exact hc.no_haves id
      · intro id t ht
        rcases resume_threads ht with ⟨-, rfl⟩ | ⟨-, ht⟩
        · exact fun hprobes => hprobes
        · exact hthreads id t ht
    | moved id inp t t' c' ht hmove =>
      have hpc := hthreads id t ht
      refine ⟨hmove.supplies hmode hpc hc, ?_⟩
      intro id' t₁ ht₁
      rcases resume_threads ht₁ with ⟨-, rfl⟩ | ⟨-, ht₁⟩
      · exact hmove.not_probes hmode hpc
      · exact hthreads id' t₁ ht₁

end Swarm

end supplies

/-! ## A Thread of the Seeder -/

/-- While Choke is to be sent the thread is as it was when it read
    NotInterested. -/
def PC.calm : PC → PC
  | .send_choke => .read_message
  | pc => pc

theorem PC.calm_eq {pc : PC} (h : pc ≠ .send_choke) : pc.calm = pc := by
  cases pc with
  | send_choke => exact absurd rfl h
  | _ => rfl

section seeder

variable {sha1 : Bytes → Bytes} {F : Bytes} {c c' : Controller} {peer_id : ℕ}
  {st st' : PeerState} {pc pc' : PC} {inp : Input}

theorem Serving.not_choke (h : Serving F peer_id c st pc) : pc ≠ .send_choke := by
  rintro rfl
  exact h.point

/-- The loop over the requests goes through all of them. -/
theorem Serving.serves (h : Serving F peer_id c st pc.calm) : pc.Serves st := by
  have hpoint := h.point
  cases pc with
  | serve kept req rest call =>
    obtain ⟨rfl, hreqs⟩ := hpoint
    exact hreqs
  | send_piece kept req rest block call =>
    obtain ⟨rfl, hreqs, -⟩ := hpoint
    exact hreqs
  | _ => trivial

/-- Another thread of the seeder has moved. -/
theorem Serving.under (h : Serving F peer_id c st pc) (hmeta : c'.toMetadata = c.toMetadata)
    (hsupply : c'.Supplies F) : Serving F peer_id c' st pc where
  point := by
    rw [hmeta]
    exact h.point
  no_pending := h.no_pending
  asked := by
    rw [hmeta]
    exact h.asked
  seeding := hsupply.seeding
  no_haves := hsupply.no_haves peer_id
  guarded := by
    rw [hmeta]
    exact h.guarded

/-- **Step lemma**: a NotInterested is answered with Choke, and changes nothing
    else. -/
theorem Serving.calmed (hs : c.mode = .SEEDER) (hg : c.Consistent) (ho : c.Original sha1 F)
    (h : Serving F peer_id c st pc.calm) (hmove : Move sha1 c peer_id st pc inp c' st' pc')
    (hsent : inp ≠ .sent false)
    (hmsg : ∀ msg, inp = .recv (some msg) → FromLeecher c.toMetadata msg ∨ msg.id = .NotInterested) :
    Serving F peer_id c' st' pc'.calm ∧
      (pc' = .send_choke → ∃ p, inp = .recv (some ⟨.NotInterested, p⟩)) := by
  by_cases hpc : pc = .send_choke
  · subst hpc
    cases hmove
    refine ⟨?_, PC.noConfusion⟩
    exact ⟨h.point, h.no_pending, h.asked, h.seeding, h.no_haves, h.guarded.1, trivial⟩
  · rw [PC.calm_eq hpc] at h
    by_cases hnot : ∃ p, inp = .recv (some ⟨.NotInterested, p⟩)
    · refine ⟨?_, fun _ => hnot⟩
      obtain ⟨p, rfl⟩ := hnot
      cases hmove with
      | ignored _ hign => exact hign.elim
      | got_not_interested =>
        have hguard := h.guarded.1
        exact ⟨h.point, h.no_pending, h.asked, h.seeding, h.no_haves,
          ⟨hguard.pending, hguard.incoming⟩, trivial⟩
    · have hserve : Serving F peer_id c' st' pc' := by
        apply h.moved hs hg ho hmove hsent
        intro msg hinp
        rcases hmsg msg hinp with hfrom | hid
        · exact hfrom
        · obtain ⟨mid, p⟩ := msg
          obtain rfl : mid = .NotInterested := hid
          exact absurd ⟨p, hinp⟩ hnot
      rw [PC.calm_eq hserve.not_choke]
      exact ⟨hserve, fun heq => absurd heq hserve.not_choke⟩

/-- The opening ends with the Bitfield. -/
theorem Serving.opening_calmed (h : Serving F peer_id c st pc.calm)
    (hmove : Move sha1 c peer_id st pc inp c' st' pc') (hopen : pc'.Opening) :
    pc.Opening ∧ inp = .call := by
  rcases hmove.target with hin | rfl | ⟨rfl, rfl, -⟩ | ⟨hleft, -⟩
  · exact absurd hopen hin.not_opening
  · exact h.point.elim
  · exact ⟨trivial, rfl⟩
  · exact absurd hopen hleft.not_opening

/-- The seeder leaves at the end of the stream only. -/
theorem Serving.left_calmed (hs : c.mode = .SEEDER) (h : Serving F peer_id c st pc.calm)
    (hmove : Move sha1 c peer_id st pc inp c' st' pc') (hleft : pc'.Left) :
    pc.Left ∨ inp = .recv none := by
  rcases hmove.target with hin | rfl | ⟨-, -, hop⟩ | ⟨-, hwas | hnone | ⟨hl, -⟩⟩
  · exact absurd hleft hin.not_left
  · exact h.point.elim
  · exact absurd hop hleft.not_opening
  · exact .inl hwas
  · exact .inr hnone
  · rw [hs] at hl
    cases hl

/-- The seeder stops choking when it is about to send Unchoke. -/
theorem Serving.unchoking_calmed (h : Serving F peer_id c st pc.calm)
    (hmove : Move sha1 c peer_id st pc inp c' st' pc') (hopen : st'.am_choking = false) :
    pc' = .send_unchoke ∨
      (st.am_choking = false ∧ (pc = .send_unchoke → ∃ ok, inp = .sent ok)) := by
  cases hmove
  case got_interested => exact .inl rfl
  case unchoke_sent ok => exact .inr ⟨hopen, fun _ => ⟨ok, rfl⟩⟩
  case got_not_interested => cases hopen
  case request_sent => exact h.point.elim
  case got_request hwas _ => exact .inr ⟨hwas, PC.noConfusion⟩
  all_goals exact .inr ⟨hopen, PC.noConfusion⟩

end seeder

/-! ## A Thread of the Leecher -/

/-- The thread has not yet said whether it is interested. -/
def PC.Greets : PC → Prop
  | .opening => True
  | .send_bitfield _ => True
  | .send_interested => True
  | _ => False

/-- The thread has said that it is not interested. -/
def Thread.Declined (t : Thread) : Prop := t.state.am_interested = false ∧ ¬ t.pc.Greets

theorem Thread.not_declined {t : Thread} (h : t.state.am_interested = true) : ¬ t.Declined := by
  intro hdec
  rw [hdec.1] at h
  cases h

/-- The points before the Bitfield is read. -/
def PC.Awaits (st : PeerState) : PC → Prop
  | .opening => True
  | .send_bitfield _ => True
  | .send_interested => True
  | .loop_top => st.am_interested = true
  | .flush_haves => st.am_interested = true
  | .send_have _ _ => st.am_interested = true
  | .read_message => st.am_interested = true
  | .cleanup _ _ => True
  | .unregister => True
  | .closed => True
  | _ => False

/-- The thread has not read the Bitfield. -/
def Thread.Awaits (t : Thread) : Prop := t.state.peer_choking = true ∧ t.pc.Awaits t.state

section leecher

variable {sha1 : Bytes → Bytes} {F : Bytes} {c c' : Controller} {peer_id : ℕ}
  {st st' : PeerState} {pc pc' : PC} {inp : Input}

/-- A thread that has declined never asks again. -/
theorem Fetching.declined_moved (h : Fetching st pc) (hmove : Move sha1 c peer_id st pc inp c' st' pc')
    (hsent : inp ≠ .sent false) (hwas : Thread.Declined ⟨st, pc⟩) :
    Thread.Declined ⟨st', pc'⟩ := by
  obtain ⟨hint, hgreets⟩ := hwas
  have hpoint := h.point
  cases hmove
  case shaken => exact hpoint.elim
  case opened => exact absurd trivial hgreets
  case bitfield_sent => exact absurd trivial hgreets
  case interested_sent => exact absurd trivial hgreets
  case finished => exact ⟨hint, leave_cases id fun _ _ => id⟩
  case disconnected => exact ⟨hint, leave_cases id fun _ _ => id⟩
  case drained => exact ⟨hint, flush_cases id id (fun _ _ => id) fun _ _ => id⟩
  case have_sent => exact ⟨hint, flush_cases id id (fun _ _ => id) fun _ _ => id⟩
  case have_unsent => exact absurd rfl hsent
  case got_choke => exact ⟨hint, choke_next_cases id fun _ _ => id⟩
  case got_unchoke => exact ⟨hint, request_next_blocks_cases id id⟩
  case got_bitfield => exact ⟨hint, by split <;> exact id⟩
  case got_have => exact ⟨hint, have_next_cases id id⟩
  case got_have_beyond => exact ⟨hint, have_next_cases id id⟩
  case got_request hopen _ =>
    have hchoking := h.choking
    rw [hopen] at hchoking
    cases hchoking
  case request_sent =>
    have hask : st.Asking := hpoint
    exact absurd hask (st.not_asking_of_declined hint)
  case bitfield_stored =>
    rw [show st.am_interested = true from hpoint.1] at hint
    cases hint
  case block_received => exact ⟨hint, request_next_blocks_cases id id⟩
  case not_interested_sent => exact ⟨rfl, id⟩
  all_goals first
    | exact hpoint.elim
    | exact ⟨hint, id⟩

/-- A thread that asks goes on asking. -/
theorem Fetching.asking_moved (h : Fetching st pc) (hmove : Move sha1 c peer_id st pc inp c' st' pc')
    (hmsg : ∀ msg, inp = .recv (some msg) → Comes st msg) (hask : st.Asking) : st'.Asking := by
  have hpoint := h.point
  cases hmove
  case got_choke => exact absurd hask (st.not_asking_of_declined (hmsg _ rfl))
  case got_unchoke => exact ⟨hask.1, rfl⟩
  case interested_sent => exact absurd hask (st.not_asking_of_choked hpoint)
  case not_interested_sent => exact absurd hask (st.not_asking_of_choked hpoint)
  case got_request hst' => exact hst' ▸ hask
  case request_sent hst' => exact hst' ▸ hask
  all_goals exact hask

/-- Until a message is read the thread goes on waiting for the Bitfield. -/
theorem Fetching.awaits_moved (hl : c.mode = .LEECHER) (h : Fetching st pc)
    (hmove : Move sha1 c peer_id st pc inp c' st' pc') (hsent : inp ≠ .sent false)
    (hsilent : ∀ msg, inp ≠ .recv (some msg)) (hwas : Thread.Awaits ⟨st, pc⟩) :
    Thread.Awaits ⟨st', pc'⟩ := by
  obtain ⟨hchoking, hpc⟩ := hwas
  have hpoint := h.point
  have hflush {haves : List ℤ} (hint : st.am_interested = true) :
      (flush_next st haves).Awaits st := by
    cases haves with
    | nil =>
      show (serve_incoming_requests st .before_read).Awaits st
      unfold serve_incoming_requests
      rw [if_pos h.choking]
      exact hint
    | cons piece rest => exact hint
  cases hmove
  case shaken => exact hpoint.elim
  case bitfield_sent =>
    rw [if_pos hl]
    exact ⟨hchoking, trivial⟩
  case finished => exact ⟨hchoking, leave_cases trivial fun _ _ => trivial⟩
  case disconnected => exact ⟨hchoking, leave_cases trivial fun _ _ => trivial⟩
  case drained => exact ⟨hchoking, hflush hpc⟩
  case have_sent => exact ⟨hchoking, hflush hpc⟩
  case have_unsent => exact absurd rfl hsent
  case interested_sent => exact ⟨hchoking, rfl⟩
  case continued => exact ⟨hchoking, hpc⟩
  case opened => exact ⟨hchoking, trivial⟩
  case cleanup_released => exact ⟨hchoking, trivial⟩
  case cleanup_done => exact ⟨hchoking, trivial⟩
  case unregistered => exact ⟨hchoking, trivial⟩
  all_goals first
    | exact hpc.elim
    | exact absurd rfl (hsilent _)

/-- A message is read in `read_message`. -/
theorem Move.at_read {msg : Option PeerMessage}
    (h : Move sha1 c peer_id st pc (.recv msg) c' st' pc') : pc = .read_message := by
  cases h <;> rfl

/-- What the leecher sends. -/
theorem Fetching.output (hg : c.Consistent) (h : Fetching st pc) (hspeaks : pc.Speaks F c)
    (hmove : Move sha1 c peer_id st pc (.sent true) c' st' pc') :
    ∃ msg, pc.output = some msg ∧
      ((FromLeecher c.toMetadata msg ∧ (msg.id = .Request → st.Asking)) ∨
        (msg.id = .NotInterested ∧ Thread.Declined ⟨st', pc'⟩)) := by
  have hpoint := h.point
  cases hmove
  case bitfield_sent => exact ⟨_, rfl, .inl ⟨trivial, by simp⟩⟩
  case interested_sent => exact ⟨_, rfl, .inl ⟨trivial, by simp⟩⟩
  case not_interested_sent => exact ⟨_, rfl, .inr ⟨rfl, rfl, id⟩⟩
  case have_sent piece rest =>
    have hhas := (hspeaks piece (List.mem_cons_self ..)).has
    exact ⟨_, rfl, .inl ⟨fromLeecher_have hg hhas, by simp [build_have]⟩⟩
  case request_sent req _ =>
    have hblock : c.WholeBlock req.piece_index req.block_offset req.block_length := hspeaks
    exact ⟨_, rfl, .inl ⟨fromLeecher_request hg hblock.1 _, fun _ => hpoint⟩⟩
  all_goals exact hpoint.elim

end leecher

/-! ## The Connection -/

namespace Duo

/-- How far the seeder's Bitfield has come: it is read, or it is the first
    message on its way, or still to be sent. -/
inductive Met (m : Metadata) (d : Duo) : Prop where
  | read : m.Full d.A.thread.state.peer_bitfield → (∀ msg ∈ d.ba, msg.id ≠ .Bitfield) →
      ¬ d.B.thread.pc.Opening → Met m d
  | on_the_way (bf : PeerMessage) (rest : List PeerMessage) : d.A.thread.Awaits →
      d.ba = bf :: rest → bf.id = .Bitfield → (∀ msg ∈ rest, msg.id ≠ .Bitfield) →
      ¬ d.B.thread.pc.Opening → Met m d
  | to_be_sent : d.A.thread.Awaits → d.ba = [] → d.B.thread.pc.Opening → Met m d

/-- What links the two sides, between any two steps. -/
structure Supplied (F : Bytes) (m : Metadata) (d : Duo) : Prop where
  leecher : Fetching d.A.thread.state d.A.thread.pc
  seeder : Serving F d.B.id d.B.ctl d.B.thread.state d.B.thread.pc.calm
  from_leecher : ∀ msg ∈ d.ab, FromLeecher m msg ∨ msg.id = .NotInterested
  from_seeder : ∀ msg ∈ d.ba, FromSeeder m F msg ∨ msg.id = .Choke
  met : d.Met m
  /-- A thread that has not declined is not choked again. -/
  wanted : ¬ d.A.thread.Declined → (∀ msg ∈ d.ab, msg.id ≠ .NotInterested) ∧
    d.B.thread.pc ≠ .send_choke ∧ ∀ msg ∈ d.ba, msg.id ≠ .Choke
  /-- Once the seeder does not choke it, it is told. -/
  unchoked : ¬ d.A.thread.Declined → d.B.thread.state.am_choking = false →
    d.B.thread.pc = .send_unchoke ∨ (∃ msg ∈ d.ba, msg.id = .Unchoke) ∨
      d.A.thread.state.peer_choking = false
  /-- A thread that does not ask has not asked. -/
  not_asked : ¬ d.A.thread.state.Asking → (∀ msg ∈ d.ab, msg.id ≠ .Request) ∧
    d.B.thread.state.incoming_requests = [] ∧ ∀ msg ∈ d.ba, msg.id ≠ .Piece
  /-- The leecher leaves first. -/
  left : d.B.thread.pc.Left → d.A.thread.pc = .closed

variable {sha1 : Bytes → Bytes} {F : Bytes} {m : Metadata} {A B p : Party}
  {ab ba ab' ba' out : List PeerMessage} {msg : PeerMessage}

/-- The next message reaches the leecher as a seeder's. -/
theorem Supplied.comes {d : Duo} (hd : Supplied F m d) (hba : d.ba = msg :: ba)
    (hpc : d.A.thread.pc = .read_message) : Comes d.A.thread.state msg := by
  have hmem : msg ∈ d.ba := by
    rw [hba]
    exact List.mem_cons_self ..
  rcases hd.from_seeder msg hmem with hfrom | hid
  · rcases msg with ⟨mid, p⟩
    cases mid with
    | Bitfield =>
      cases hd.met with
      | read _ hnone _ => exact absurd rfl (hnone _ hmem)
      | on_the_way _ _ hawaits _ _ _ _ =>
        obtain ⟨hchoking, hat⟩ := hawaits
        rw [hpc] at hat
        exact ⟨hat, hchoking⟩
      | to_be_sent _ hnil _ =>
        rw [hba] at hnil
        cases hnil
    | Unchoke => trivial
    | Piece =>
      by_contra hnot
      exact (hd.not_asked hnot).2.2 _ hmem rfl
    | _ => exact hfrom.elim
  · rcases msg with ⟨mid, p⟩
    obtain rfl : mid = .Choke := hid
    show d.A.thread.state.am_interested = false
    by_contra hint
    rw [Bool.not_eq_false] at hint
    exact (hd.wanted (Thread.not_declined hint)).2.2 _ hmem rfl

/-- The leecher calls a method or sends. -/
theorem Supplied.moved_A (hd : Supplied F m ⟨A, B, ab, ba⟩) (hopen : A.thread.pc ≠ .closed)
    (hleech : Fetching p.thread.state p.thread.pc)
    (hbf : p.thread.state.peer_bitfield = A.thread.state.peer_bitfield)
    (hchoking : p.thread.state.peer_choking = A.thread.state.peer_choking)
    (hawaits : A.thread.Awaits → p.thread.Awaits)
    (hdeclined : A.thread.Declined → p.thread.Declined)
    (hasking : A.thread.state.Asking → p.thread.state.Asking)
    (hout : ∀ msg ∈ ab', msg ∈ ab ∨
      (FromLeecher m msg ∧ (msg.id = .Request → A.thread.state.Asking)) ∨
        (msg.id = .NotInterested ∧ p.thread.Declined)) : Supplied F m ⟨p, B, ab', ba⟩ where
  leecher := hleech
  seeder := hd.seeder
  from_leecher := by
    intro msg hmsg
    rcases hout msg hmsg with hold | hnew | hnew
    · exact hd.from_leecher msg hold
    · exact .inl hnew.1
    · exact .inr hnew.1
  from_seeder := hd.from_seeder
  met := by
    cases hd.met with
    | read hfull hnone hop => exact .read (hbf ▸ hfull) hnone hop
    | on_the_way bf rest hwait hba hid hnone hop =>
      exact .on_the_way bf rest (hawaits hwait) hba hid hnone hop
    | to_be_sent hwait hba hop => exact .to_be_sent (hawaits hwait) hba hop
  wanted := by
    intro hnot
    obtain ⟨hab, hpc, hba⟩ := hd.wanted fun hwas => hnot (hdeclined hwas)
    refine ⟨?_, hpc, hba⟩
    intro msg hmsg hid
    rcases hout msg hmsg with hold | ⟨hfrom, -⟩ | ⟨-, hnew⟩
    · exact hab msg hold hid
    · unfold FromLeecher at hfrom
      rw [hid] at hfrom
      exact hfrom
    · exact hnot hnew
  unchoked := by
    intro hnot hB
    rcases hd.unchoked (fun hwas => hnot (hdeclined hwas)) hB with hpc | hmsg | hch
    · exact .inl hpc
    · exact .inr (.inl hmsg)
    · exact .inr (.inr (hchoking.trans hch))
  not_asked := by
    intro hnot
    have hwas : ¬ A.thread.state.Asking := fun hask => hnot (hasking hask)
    obtain ⟨hab, hin, hba⟩ := hd.not_asked hwas
    refine ⟨?_, hin, hba⟩
    intro msg hmsg hid
    rcases hout msg hmsg with hold | ⟨-, hreq⟩ | ⟨hid', -⟩
    · exact hab msg hold hid
    · exact hwas (hreq hid)
    · rw [hid] at hid'
      cases hid'
  left := fun hleft => absurd (hd.left hleft) hopen

/-- What a message changes at the leecher. -/
inductive Hears (m : Metadata) (st st' : PeerState) (msg : PeerMessage) : Prop where
  | bitfield : msg.id = .Bitfield → m.Full st'.peer_bitfield →
      st'.peer_choking = st.peer_choking → Hears m st st' msg
  | unchoke : msg.id = .Unchoke → st'.peer_bitfield = st.peer_bitfield →
      st'.peer_choking = false → Hears m st st' msg
  | choke : msg.id = .Choke → st'.peer_bitfield = st.peer_bitfield → Hears m st st' msg
  | piece : msg.id = .Piece → st'.peer_bitfield = st.peer_bitfield →
      st'.peer_choking = st.peer_choking → Hears m st st' msg

theorem Hears.bitfield_kept {st st' : PeerState} (h : Hears m st st' msg)
    (hid : msg.id ≠ .Bitfield) : st'.peer_bitfield = st.peer_bitfield := by
  cases h with
  | bitfield hbf => exact absurd hbf hid
  | unchoke _ hsame => exact hsame
  | choke _ hsame => exact hsame
  | piece _ hsame => exact hsame

/-- The leecher reads a message. -/
theorem Supplied.read_A (hd : Supplied F m ⟨A, B, ab, msg :: ba⟩)
    (hpc : A.thread.pc = .read_message) (hleech : Fetching p.thread.state p.thread.pc)
    (hdeclined : A.thread.Declined → p.thread.Declined)
    (hasking : A.thread.state.Asking → p.thread.state.Asking)
    (hheard : Hears m A.thread.state p.thread.state msg) : Supplied F m ⟨p, B, ab, ba⟩ where
  leecher := hleech
  seeder := hd.seeder
  from_leecher := hd.from_leecher
  from_seeder := fun msg hmsg => hd.from_seeder msg (List.mem_cons_of_mem _ hmsg)
  met := by
    cases hd.met with
    | read hfull hnone hop =>
      refine .read ?_ (fun msg hmsg => hnone msg (List.mem_cons_of_mem _ hmsg)) hop
      have hkept := hheard.bitfield_kept (hnone msg (List.mem_cons_self ..))
      exact hkept ▸ hfull
    | on_the_way bf rest _ hba hid hnone hop =>
      -- this is the Bitfield
      obtain ⟨rfl, rfl⟩ := List.cons.inj hba
      refine .read ?_ hnone hop
      cases hheard with
      | bitfield _ hfull => exact hfull
      | unchoke hid' | choke hid' | piece hid' =>
        rw [hid] at hid'
        cases hid'
    | to_be_sent _ hba _ => cases hba
  wanted := by
    intro hnot
    obtain ⟨hab, hB, hba⟩ := hd.wanted fun hwas => hnot (hdeclined hwas)
    exact ⟨hab, hB, fun msg hmsg => hba msg (List.mem_cons_of_mem _ hmsg)⟩
  unchoked := by
    intro hnot hB
    have hwas : ¬ A.thread.Declined := fun hwas => hnot (hdeclined hwas)
    have hnochoke := (hd.wanted hwas).2.2 msg (List.mem_cons_self ..)
    rcases hd.unchoked hwas hB with hat | ⟨u, hu, hid⟩ | hch
    · exact .inl hat
    · -- the Unchoke is this message, or still on its way
      rcases List.mem_cons.mp hu with rfl | hu
      · cases hheard with
        | unchoke _ _ hch => exact .inr (.inr hch)
        | bitfield hid' | choke hid' | piece hid' =>
          rw [hid] at hid'
          cases hid'
      · exact .inr (.inl ⟨u, hu, hid⟩)
    · cases hheard with
      | bitfield _ _ hsame => exact .inr (.inr (hsame.trans hch))
      | unchoke _ _ hnew => exact .inr (.inr hnew)
      | choke hid => exact absurd hid hnochoke
      | piece _ _ hsame => exact .inr (.inr (hsame.trans hch))
  not_asked := by
    intro hnot
    obtain ⟨hab, hin, hba⟩ := hd.not_asked fun hask => hnot (hasking hask)
    exact ⟨hab, hin, fun msg hmsg => hba msg (List.mem_cons_of_mem _ hmsg)⟩
  left := by
    intro hleft
    have hgone : A.thread.pc = .closed := hd.left hleft
    rw [hpc] at hgone
    cases hgone

/-- A step of the seeder's thread that sends `out`, and reads from `ab`. -/
theorem Supplied.moved_B (hd : Supplied F m ⟨A, B, ab, ba⟩) (hab : ∀ msg ∈ ab', msg ∈ ab)
    (hserve : Serving F p.id p.ctl p.thread.state p.thread.pc.calm)
    (hsend : ∀ msg ∈ out, (FromSeeder m F msg ∨ msg.id = .Choke) ∧
      (msg.id = .Piece → B.thread.state.incoming_requests ≠ []))
    (hopening : (p.thread.pc.Opening ∧ B.thread.pc.Opening ∧ out = []) ∨
      (¬ p.thread.pc.Opening ∧ ¬ B.thread.pc.Opening ∧ ∀ msg ∈ out, msg.id ≠ .Bitfield) ∨
      (¬ p.thread.pc.Opening ∧ B.thread.pc.Opening ∧ ∃ bf, out = [bf] ∧ bf.id = .Bitfield))
    (hwanted : ¬ A.thread.Declined → p.thread.pc ≠ .send_choke ∧ ∀ msg ∈ out, msg.id ≠ .Choke)
    (hunchoke : ¬ A.thread.Declined → p.thread.state.am_choking = false →
      p.thread.pc = .send_unchoke ∨ (B.thread.state.am_choking = false ∧
        (B.thread.pc = .send_unchoke → ∃ msg ∈ out, msg.id = .Unchoke)))
    (hasked : B.thread.state.incoming_requests = [] → (∀ msg ∈ ab, msg.id ≠ .Request) →
      p.thread.state.incoming_requests = [])
    (hleft : p.thread.pc.Left → A.thread.pc = .closed) :
    Supplied F m ⟨A, p, ab', ba ++ out⟩ where
  leecher := hd.leecher
  seeder := hserve
  from_leecher := fun msg hmsg => hd.from_leecher msg (hab msg hmsg)
  from_seeder := by
    intro msg hmsg
    rcases List.mem_append.mp hmsg with hold | hnew
    · exact hd.from_seeder msg hold
    · exact (hsend msg hnew).1
  met := by
    have append {msgs : List PeerMessage} (hmsgs : ∀ msg ∈ msgs, msg.id ≠ .Bitfield)
        (hout : ∀ msg ∈ out, msg.id ≠ .Bitfield) : ∀ msg ∈ msgs ++ out, msg.id ≠ .Bitfield := by
      intro msg hmsg
      rcases List.mem_append.mp hmsg with hold | hnew
      · exact hmsgs msg hold
      · exact hout msg hnew
    cases hd.met with
    | read hfull hnone hop =>
      rcases hopening with ⟨-, hwas, -⟩ | ⟨hnow, -, hout⟩ | ⟨-, hwas, -⟩
      · exact absurd hwas hop
      · exact .read hfull (append hnone hout) hnow
      · exact absurd hwas hop
    | on_the_way bf rest hwait hba hid hnone hop =>
      rcases hopening with ⟨-, hwas, -⟩ | ⟨hnow, -, hout⟩ | ⟨-, hwas, -⟩
      · exact absurd hwas hop
      · refine .on_the_way bf (rest ++ out) hwait ?_ hid (append hnone hout) hnow
        rw [show ba = bf :: rest from hba]
        rfl
      · exact absurd hwas hop
    | to_be_sent hwait hba hop =>
      obtain rfl : ba = [] := hba
      rcases hopening with ⟨hnow, -, rfl⟩ | ⟨-, hwas, -⟩ | ⟨hnow, -, bf, rfl, hid⟩
      · exact .to_be_sent hwait rfl hnow
      · exact absurd hop hwas
      · refine .on_the_way bf [] hwait rfl hid ?_ hnow
        intro msg hmsg
        cases hmsg
  wanted := by
    intro hnot
    obtain ⟨hnone, -, hnochoke⟩ := hd.wanted hnot
    obtain ⟨hpc, hout⟩ := hwanted hnot
    refine ⟨fun msg hmsg => hnone msg (hab msg hmsg), hpc, ?_⟩
    intro msg hmsg
    rcases List.mem_append.mp hmsg with hold | hnew
    · exact hnochoke msg hold
    · exact hout msg hnew
  unchoked := by
    intro hnot hB
    rcases hunchoke hnot hB with hpc | ⟨hwas, hout⟩
    · exact .inl hpc
    · rcases hd.unchoked hnot hwas with hpc | ⟨u, hu, hid⟩ | hch
      · obtain ⟨u, hu, hid⟩ := hout hpc
        exact .inr (.inl ⟨u, List.mem_append_right _ hu, hid⟩)
      · exact .inr (.inl ⟨u, List.mem_append_left _ hu, hid⟩)
      · exact .inr (.inr hch)
  not_asked := by
    intro hnot
    obtain ⟨hreq, hin, hpiece⟩ := hd.not_asked hnot
    refine ⟨fun msg hmsg => hreq msg (hab msg hmsg), hasked hin hreq, ?_⟩
    intro msg hmsg hid
    rcases List.mem_append.mp hmsg with hold | hnew
    · exact hpiece msg hold hid
    · exact (hsend msg hnew).2 hid hin
  left := hleft

/-! ### Every Step Keeps It -/

/-- What a message of a seeder changes at the leecher. -/
theorem hears_of_move {st st' : PeerState} {c c' : Controller} {peer_id : ℕ} {pc pc' : PC}
    (hfrom : FromSeeder m F msg ∨ msg.id = .Choke) (hcomes : Comes st msg)
    (h : Move sha1 c peer_id st pc (.recv (some msg)) c' st' pc') : Hears m st st' msg := by
  cases h
  case ignored hign =>
    rcases msg with ⟨mid, p⟩
    cases mid with
    | Piece => exact .piece rfl rfl rfl
    | Bitfield => exact hign.elim
    | Unchoke => exact hign.elim
    | Choke => exact hign.elim
    | _ => exact hcomes.elim
  case got_unchoke => exact .unchoke rfl rfl rfl
  case got_choke => exact .choke rfl rfl
  case got_piece => exact .piece rfl rfl rfl
  case got_bitfield p =>
    rcases hfrom with hfull | hid
    · exact .bitfield rfl (hfull _) rfl
    · cases hid
  all_goals exact hcomes.elim

/-- A step of the leecher. -/
theorem Supplied.turned_A {ev : Event} (hm : m.Describes sha1 F)
    (hA : A.ctl.toMetadata = m.playing .LEECHER) (hspeaks : A.thread.pc.Speaks F A.ctl)
    (hd : Supplied F m ⟨A, B, ab, ba⟩) (halone : Alone ⟨A, B, ab, ba⟩ (.A ev))
    (h : A.Turned sha1 B.closed ba ab ev p ba' ab') : Supplied F m ⟨p, B, ab', ba'⟩ := by
  have hl : A.ctl.mode = .LEECHER := by
    rw [hA]
    rfl
  have hg' : A.ctl.Consistent := by
    rw [hA]
    exact (hm.playing _).consistent
  cases h with
  | called _ _ c' t' hmove =>
    obtain ⟨hbf, hch⟩ := hmove.hears_nothing fun _ => Input.noConfusion
    have hleech : Fetching t'.state t'.pc :=
      hd.leecher.moved hl hmove Input.noConfusion fun _ => Input.noConfusion
    apply hd.moved_A hmove.not_closed hleech hbf hch
    · exact hd.leecher.awaits_moved hl hmove Input.noConfusion fun _ => Input.noConfusion
    · exact hd.leecher.declined_moved hmove Input.noConfusion
    · exact hd.leecher.asking_moved hmove fun _ => Input.noConfusion
    · exact fun msg hmsg => .inl hmsg
  | sent _ _ c' t' hmove =>
    obtain ⟨hbf, hch⟩ := hmove.hears_nothing fun _ => Input.noConfusion
    have hleech : Fetching t'.state t'.pc :=
      hd.leecher.moved hl hmove (by simp) fun _ => Input.noConfusion
    obtain ⟨out, hout, hsays⟩ := hd.leecher.output hg' hspeaks hmove
    rw [hA] at hsays
    rw [hout, Option.toList_some]
    apply hd.moved_A hmove.not_closed hleech hbf hch
    · exact hd.leecher.awaits_moved hl hmove (by simp) fun _ => Input.noConfusion
    · exact hd.leecher.declined_moved hmove (by simp)
    · exact hd.leecher.asking_moved hmove fun _ => Input.noConfusion
    · intro msg hmsg
      rcases List.mem_append.mp hmsg with hold | hnew
      · exact .inl hold
      · rw [List.mem_singleton.mp hnew]
        rcases hsays with ⟨hfrom, hreq⟩ | hdec
        · exact .inr (.inl ⟨hfrom, hreq⟩)
        · exact .inr (.inr hdec)
  | received msg _ _ c' t' hmove =>
    have hpc := hmove.at_read
    have hcomes := hd.comes rfl hpc
    have hmsg : ∀ msg', Input.recv (some msg) = .recv (some msg') → Comes A.thread.state msg' := by
      intro msg' heq
      obtain rfl := Option.some.inj (Input.recv.inj heq)
      exact hcomes
    have hleech : Fetching t'.state t'.pc := hd.leecher.moved hl hmove Input.noConfusion hmsg
    apply hd.read_A hpc hleech
    · exact hd.leecher.declined_moved hmove Input.noConfusion
    · exact hd.leecher.asking_moved hmove hmsg
    · exact hears_of_move (hd.from_seeder msg (List.mem_cons_self ..)) hcomes hmove
  | hung_up _ c' t' hclosed hmove =>
    have hleft : B.thread.pc.Left := by
      rw [closed_eq hclosed]
      trivial
    exact absurd (hd.left hleft) hmove.not_closed
  | others => exact halone.elim

/-- A step of the seeder. -/
theorem Supplied.turned_B {ev : Event} (hm : m.Describes sha1 F)
    (hB : B.ctl.toMetadata = m.playing .SEEDER) (hd : Supplied F m ⟨A, B, ab, ba⟩)
    (halone : Alone ⟨A, B, ab, ba⟩ (.B ev)) (h : B.Turned sha1 A.closed ab ba ev p ab' ba') :
    Supplied F m ⟨A, p, ab', ba'⟩ := by
  have hs : B.ctl.mode = .SEEDER := by
    rw [hB]
    rfl
  have hg : B.ctl.Consistent := by
    rw [hB]
    exact (hm.playing _).consistent
  have ho : B.ctl.Original sha1 F := by
    rw [hB]
    exact (hm.playing _).original
  have hseeder := hd.seeder
  -- a step that sends nothing
  have quiet {c' : Controller} {t' : Thread} {inp : Input} {ab' : List PeerMessage}
      (hmove : Move sha1 B.ctl B.id B.thread.state B.thread.pc inp c' t'.state t'.pc)
      (hsub : ∀ msg ∈ ab', msg ∈ ab) (hsent : ∀ ok, inp ≠ .sent ok)
      (hmsg : ∀ msg, inp = .recv (some msg) → msg ∈ ab)
      (hend : inp = .recv none → A.thread.pc = .closed) :
      Supplied F m ⟨A, ⟨c', B.id, t'⟩, ab', ba⟩ := by
    have hfrom : ∀ msg, inp = .recv (some msg) →
        FromLeecher B.ctl.toMetadata msg ∨ msg.id = .NotInterested := by
      intro msg heq
      rw [hB]
      exact hd.from_leecher msg (hmsg msg heq)
    obtain ⟨hserve, hchokes⟩ := hseeder.calmed hs hg ho hmove (hsent false) hfrom
    have hnone : ∀ msg ∈ ([] : List PeerMessage), msg.id ≠ .Bitfield ∧ msg.id ≠ .Choke := by
      intro msg hmsg
      cases hmsg
    rw [← List.append_nil ba]
    apply hd.moved_B hsub hserve
    · intro msg hmsg
      cases hmsg
    -- the opening goes on, or was over before
    · by_cases hop : t'.pc.Opening
      · exact .inl ⟨hop, (hseeder.opening_calmed hmove hop).1, rfl⟩
      · refine .inr (.inl ⟨hop, ?_, fun msg hmsg => (hnone msg hmsg).1⟩)
        exact fun hwas => hop (hmove.still_opening hwas hsent)
    · intro hnot
      refine ⟨?_, fun msg hmsg => (hnone msg hmsg).2⟩
      intro hpc
      obtain ⟨p, hinp⟩ := hchokes hpc
      exact (hd.wanted hnot).1 _ (hmsg _ hinp) rfl
    · intro _ hch
      rcases hseeder.unchoking_calmed hmove hch with hpc | ⟨hwas, hat⟩
      · exact .inl hpc
      · refine .inr ⟨hwas, ?_⟩
        intro hpc
        obtain ⟨ok, heq⟩ := hat hpc
        exact absurd heq (hsent ok)
    · intro hempty hreq
      exact hmove.nothing_asked hseeder.serves hempty fun msg heq => hreq msg (hmsg msg heq)
    · intro hleft
      rcases hseeder.left_calmed hs hmove hleft with hwas | hnone
      · exact hd.left hwas
      · exact hend hnone
  cases h with
  | called _ _ c' t' hmove =>
    exact quiet hmove (fun _ hmsg => hmsg) (fun _ => Input.noConfusion)
      (fun _ => Input.noConfusion) Input.noConfusion
  | received msg _ _ c' t' hmove =>
    apply quiet hmove (fun _ hmsg => List.mem_cons_of_mem _ hmsg) (fun _ => Input.noConfusion)
    · intro msg' heq
      obtain rfl := Option.some.inj (Input.recv.inj heq)
      exact List.mem_cons_self ..
    · simp
  | hung_up _ c' t' hclosed hmove =>
    exact quiet hmove (fun _ hmsg => hmsg) (fun _ => Input.noConfusion) (by simp)
      fun _ => closed_eq hclosed
  | sent _ _ c' t' hmove =>
    obtain ⟨hserve, hchokes⟩ :=
      hseeder.calmed hs hg ho hmove (by simp) fun _ => Input.noConfusion
    have hdone : ¬ t'.pc.Opening := fun hnow => nomatch (hseeder.opening_calmed hmove hnow).2
    have hstay : t'.pc.Left → A.thread.pc = .closed := by
      intro hleft
      rcases hseeder.left_calmed hs hmove hleft with hwas | hnone
      · exact hd.left hwas
      · cases hnone
    have hquiet : t'.pc ≠ .send_choke := by
      intro hpc
      obtain ⟨p, hinp⟩ := hchokes hpc
      cases hinp
    have hasks : B.thread.state.incoming_requests = [] → (∀ msg ∈ ab, msg.id ≠ .Request) →
        t'.state.incoming_requests = [] :=
      fun hempty _ => hmove.nothing_asked hseeder.serves hempty fun _ => Input.noConfusion
    by_cases hpc : B.thread.pc = .send_choke
    -- the Choke goes to a thread that has declined
    · have hdeclined : A.thread.Declined := by
        by_contra hnot
        exact (hd.wanted hnot).2.1 hpc
      rw [hpc]
      show Supplied F m ⟨A, ⟨c', B.id, t'⟩, ab, ba ++ [⟨.Choke, []⟩]⟩
      apply hd.moved_B (fun _ hmsg => hmsg) hserve
      · intro msg hmsg
        obtain rfl := List.mem_singleton.mp hmsg
        exact ⟨.inr rfl, fun hid => nomatch hid⟩
      · refine .inr (.inl ⟨hdone, ?_, ?_⟩)
        · rw [hpc]
          exact id
        · intro msg hmsg hid
          obtain rfl := List.mem_singleton.mp hmsg
          cases hid
      · exact fun hnot => absurd hdeclined hnot
      · exact fun hnot => absurd hdeclined hnot
      · exact hasks
      · exact hstay
    · rw [PC.calm_eq hpc] at hseeder
      obtain ⟨out, hout, hsend, hop, hpiece, hunchoke⟩ := hseeder.output hg hmove
      have hsend : FromSeeder m F out := by
        rw [hB] at hsend
        exact hsend
      rw [hout, Option.toList_some]
      apply hd.moved_B (fun _ hmsg => hmsg) hserve
      · intro msg hmsg
        rw [List.mem_singleton.mp hmsg]
        exact ⟨.inl hsend, hpiece⟩
      · by_cases hwas : B.thread.pc.Opening
        · exact .inr (.inr ⟨hdone, hwas, out, rfl, hop.mpr hwas⟩)
        · refine .inr (.inl ⟨hdone, hwas, ?_⟩)
          intro msg hmsg hid
          rw [List.mem_singleton.mp hmsg] at hid
          exact hwas (hop.mp hid)
      · intro _
        refine ⟨hquiet, ?_⟩
        intro msg hmsg hid
        rw [List.mem_singleton.mp hmsg] at hid
        unfold FromSeeder at hsend
        rw [hid] at hsend
        exact hsend
      · intro _ hch
        rcases hd.seeder.unchoking_calmed hmove hch with hat | ⟨hwas, -⟩
        · exact .inl hat
        · exact .inr ⟨hwas, fun hat => ⟨out, List.mem_singleton_self _, hunchoke hat⟩⟩
      · exact hasks
      · exact hstay
  | others => exact halone.elim

end Duo

end BitTorrentLite
