import BitTorrentLite.TwoParty.Charges
import BitTorrentLite.TwoParty.Deadlock

/-! # Termination

    An empty leecher and a seeder, alone with each other, take finitely many
    steps: each of them lowers what is left to do. Where no step is left both
    sides have closed, and the leecher has the file. For if both were reading,
    the leecher would have everything; but it only reads when it has seen that
    there is more to do.
-/

open Machine Region LTS

namespace BitTorrentLite

open Controller Metadata

/-! ## The Measure -/

/-- A step of a side does to its controller what a method does. -/
theorem Party.Turned.stepped {sha1 : Bytes → Bytes} {other_closed : Bool} {p p' : Party}
    {inbox outbox inbox' outbox' : List PeerMessage} {ev : Event}
    (h : Turned sha1 other_closed p inbox outbox ev p' inbox' outbox') :
    Controller.Stepped sha1 p.ctl p'.ctl := by
  cases h with
  | called _ _ c' t' hmove => exact hmove.stepped
  | sent _ _ c' t' hmove => exact hmove.stepped
  | received _ _ _ c' t' hmove => exact hmove.stepped
  | hung_up _ c' t' _ hmove => exact hmove.stepped
  | others _ _ op c' hstep => exact hstep

namespace Duo

/-- The runs of an empty leecher and a seeder, alone with each other. -/
abbrev exchange_runs (sha1 : Bytes → Bytes) (m : Metadata) (disk : Option Bytes) (F : Bytes) :
    System Duo Turn := (system sha1 (exchange m disk F)).restrict Alone

/-- What is left to do for both sides. -/
def charge (d : Duo) : ℕ :=
  17 * d.A.ctl.pool.card + 4 * d.A.ctl.queued d.A.id + d.A.thread.pc.leech_charge d.A.thread.state
    + d.B.thread.pc.seed_charge 4 23 + (d.ab.map (request_charge 4)).sum
    + (d.ba.map (answer_charge 4 23)).sum

variable {sha1 : Bytes → Bytes} {F : Bytes} {m : Metadata} {A B : Party}
  {ab ba : List PeerMessage} {d d' : Duo}

theorem Linked.charged_A {p : Party} {ab' ba' : List PeerMessage} {ev : Event}
    (hl : m.mode = .LEECHER) (hg : m.Consistent) (hfit : m.CountFits) (ho : m.Original sha1 F)
    (hA : A.ctl.toMetadata = m) (hrange : A.ctl.StatusRange) (hd : Linked F m ⟨A, B, ab, ba⟩)
    (halone : Alone ⟨A, B, ab, ba⟩ (.A ev)) (h : A.Turned sha1 B.closed ba ab ev p ba' ab') :
    charge ⟨p, B, ab', ba'⟩ < charge ⟨A, B, ab, ba⟩ := by
  subst hA
  unfold charge
  cases h with
  | called _ _ c' t' hmove =>
    have hlt := hd.leecher.charged hl hg hfit ho hrange hmove Input.noConfusion Input.noConfusion
      fun _ => Input.noConfusion
    simp only [Input.sent_charge, Input.read_charge] at hlt ⊢
    omega
  | sent _ _ c' t' hmove =>
    have hlt := hd.leecher.charged hl hg hfit ho hrange hmove (by simp) Input.noConfusion
      fun _ => Input.noConfusion
    have hout := charges_append (request_charge 4) ab A.thread.pc.output
    simp only [Input.sent_charge, Input.read_charge] at hlt ⊢
    omega
  | received msg _ _ c' t' hmove =>
    have hlt := hd.leecher.charged hl hg hfit ho hrange hmove Input.noConfusion (by simp)
      fun msg' heq => by
        obtain rfl := Option.some.inj (Input.recv.inj heq)
        exact hd.arrives rfl
    simp only [Input.sent_charge, Input.read_charge, List.map_cons, List.sum_cons] at hlt ⊢
    omega
  | hung_up _ c' t' hclosed hmove =>
    -- the seeder closes after the leecher
    have hleft : B.thread.pc.Left := by
      rw [closed_eq hclosed]
      trivial
    exact absurd (hd.left hleft) hmove.not_closed
  | others => exact halone.elim

theorem Linked.charged_B {p : Party} {ab' ba' : List PeerMessage} {ev : Event}
    (hg : m.Consistent) (ho : m.Original sha1 F) (hB : B.ctl.toMetadata = m.seeder)
    (hd : Linked F m ⟨A, B, ab, ba⟩) (halone : Alone ⟨A, B, ab, ba⟩ (.B ev))
    (h : B.Turned sha1 A.closed ab ba ev p ab' ba') :
    charge ⟨A, p, ab', ba'⟩ < charge ⟨A, B, ab, ba⟩ := by
  have hs : B.ctl.mode = .SEEDER := by
    rw [hB]
    rfl
  have hg' : B.ctl.Consistent := by
    rw [hB]
    exact hg.seeder
  have ho' : B.ctl.Original sha1 F := by
    rw [hB]
    exact ⟨ho.length, ho.hashes⟩
  unfold charge
  cases h with
  | called _ _ c' t' hmove =>
    have hlt := hd.seeder.charged 4 23 hs hg' ho' hmove Input.noConfusion fun _ => Input.noConfusion
    simp only [Input.sent_charge, Input.read_charge] at hlt ⊢
    omega
  | sent _ _ c' t' hmove =>
    have hlt := hd.seeder.charged 4 23 hs hg' ho' hmove (by simp) fun _ => Input.noConfusion
    have hout := charges_append (answer_charge 4 23) ba B.thread.pc.output
    simp only [Input.sent_charge, Input.read_charge] at hlt ⊢
    omega
  | received msg _ _ c' t' hmove =>
    have hlt := hd.seeder.charged 4 23 hs hg' ho' hmove Input.noConfusion fun msg' heq => by
      obtain rfl := Option.some.inj (Input.recv.inj heq)
      rw [hB]
      exact hd.from_leecher _ (List.mem_cons_self ..)
    simp only [Input.sent_charge, Input.read_charge, List.map_cons, List.sum_cons] at hlt ⊢
    omega
  | hung_up _ c' t' hclosed hmove =>
    have hlt := hd.seeder.charged 4 23 hs hg' ho' hmove Input.noConfusion (by simp)
    simp only [Input.sent_charge, Input.read_charge] at hlt ⊢
    omega
  | others => exact halone.elim

/-- What the leecher's status values are. -/
theorem reachable_statusRange_A {d₀ : Duo} (h₀ : d₀.A.ctl.StatusRange)
    (h : (system sha1 d₀).Reachable d) : d.A.ctl.StatusRange := by
  refine System.invariant (I := fun d => d.A.ctl.StatusRange) ?_ ?_ d h
  · intro d hd
    obtain rfl : d = d₀ := hd
    exact h₀
  · intro d l d' _ hrange hst
    cases next_stepped hst with
    | A ev p ab ba hturn => exact hrange.stepped hturn.stepped
    | B => exact hrange

theorem exchange_statusRange {disk : Option Bytes}
    (hr : (exchange_runs sha1 m disk F).Reachable d) :
    d.A.ctl.StatusRange := by
  apply reachable_statusRange_A ?_ hr.of_restrict
  intro i
  show (if m.mode = .SEEDER then 1 else 0) ≤ 2
  split
  · decide
  · decide

/-- **Step lemma**: every step uses up some of what is left to do. -/
theorem charged {disk : Option Bytes} (hl : m.mode = .LEECHER) (hg : m.Consistent)
    (hfit : m.CountFits) (ho : m.Original sha1 F) {l : Turn}
    (hr : (exchange_runs sha1 m disk F).Reachable d)
    (hst : (exchange_runs sha1 m disk F).step d l d') :
    d'.charge < d.charge := by
  have hd := reachable_linked hl hg hfit ho hr
  obtain ⟨hA, hB⟩ := reachable_toMetadata hr.of_restrict
  have hrange := exchange_statusRange hr
  cases next_stepped hst.2 with
  | A ev p ab ba hturn => exact hd.charged_A hl hg hfit ho hA hrange hst.1 hturn
  | B ev p ab ba hturn => exact hd.charged_B hg ho hB hst.1 hturn

end Duo

/-! ## Where No Step Is Left -/

/-- The thread is on its way to a message, and has seen that there is more to
    do. -/
def PC.Polling : PC → Prop
  | .flush_haves => True
  | .send_have _ _ => True
  | .read_message => True
  | _ => False

section moves

variable {sha1 : Bytes → Bytes} {F : Bytes} {c c' : Controller} {peer_id : ℕ}
  {st st' : PeerState} {pc pc' : PC} {inp : Input}

theorem not_polling_leave (st : PeerState) : ¬ (leave st).Polling :=
  leave_cases (motive := fun pc => ¬ pc.Polling) id fun _ _ => id

theorem not_polling_request_loop (st : PeerState) : ¬ (request_loop st).Polling :=
  request_loop_cases (motive := fun pc => ¬ pc.Polling) id id

theorem not_polling_request_next_blocks (m : Metadata) (st : PeerState) :
    ¬ (request_next_blocks m st).Polling :=
  request_next_blocks_cases (motive := fun pc => ¬ pc.Polling) id id

/-- Only what is not all done is polled for. -/
theorem Leeching.polling (hl : c.mode = .LEECHER) (h : Leeching F peer_id c st pc)
    (hmove : Move sha1 c peer_id st pc inp c' st' pc') (hpolls : pc.Polling → c.all_done = false)
    (hsent : inp ≠ .sent false)
    (harr : ∀ msg, inp = .recv (some msg) → Arrives c.toMetadata F st msg)
    (hpolling : pc'.Polling) : c'.all_done = false := by
  have hpoint := h.point
  cases hmove
  case continued hmore =>
    rw [Bool.eq_false_iff]
    intro hdone
    exact hmore ⟨hl, hdone⟩
  case drained => exact hpolls trivial
  case have_sent => exact hpolls trivial
  case have_unsent => exact absurd rfl hsent
  case bitfield_sent =>
    rw [if_pos hl] at hpolling
    exact hpolling.elim
  case bitfield_stored =>
    rw [if_pos hpoint.1] at hpolling
    exact hpolling.elim
  case got_bitfield =>
    rw [if_pos hl] at hpolling
    exact hpolling.elim
  case finished => exact absurd hpolling (not_polling_leave _)
  case disconnected => exact absurd hpolling (not_polling_leave _)
  case got_unchoke => exact absurd hpolling (not_polling_request_next_blocks _ _)
  case block_received => exact absurd hpolling (not_polling_request_next_blocks _ _)
  case request_sent => exact absurd hpolling (not_polling_request_loop _)
  all_goals first
    | exact hpolling.elim
    | exact hpoint.elim
    | exact (harr _ rfl).sent.elim

end moves

/-- A step that does not fail and that the thread waits for is taken. -/
theorem Party.take_isSome {sha1 : Bytes → Bytes} {p : Party} {inp : Input}
    (hg : p.ctl.Consistent) (hpc : p.thread.pc.Guarded p.ctl.toMetadata)
    (hok : ∀ msg, inp = .recv (some msg) → MessageOk p.ctl.toMetadata p.thread.state msg)
    (hadv : (p.thread.advance sha1 p.ctl p.id inp).isSome) : (p.take sha1 inp).isSome := by
  obtain ⟨r, hr⟩ := Option.isSome_iff_exists.mp hadv
  unfold take
  cases r with
  | error e => exact absurd hr (advance_no_fault hg hpc hok e)
  | ok r =>
    rw [hr]
    rfl

/-- At `read_message` a thread waits for whatever arrives. -/
theorem advance_recv_isSome {sha1 : Bytes → Bytes} {p : Party} (msg : Option PeerMessage)
    (hpc : p.thread.pc = .read_message) :
    (p.thread.advance sha1 p.ctl p.id (.recv msg)).isSome := by
  unfold Thread.advance
  rw [hpc]
  cases msg with
  | none => rfl
  | some msg => rfl

/-- A side that reads and has nothing to read is the only one that is stuck. -/
theorem Party.inbox_eq_nil {sha1 : Bytes → Bytes} {p : Party} {inbox outbox : List PeerMessage}
    {other_closed : Bool} (hg : p.ctl.Consistent) (hpc : p.thread.pc.Guarded p.ctl.toMetadata)
    (hread : p.thread.pc = .read_message)
    (hok : ∀ msg ∈ inbox, MessageOk p.ctl.toMetadata p.thread.state msg)
    (hnone : p.turn sha1 other_closed inbox outbox .recv = none) : inbox = [] := by
  cases inbox with
  | nil => rfl
  | cons msg rest =>
    have hsome : (p.take sha1 (.recv (some msg))).isSome := by
      apply take_isSome hg hpc ?_ (advance_recv_isSome _ hread)
      intro msg' heq
      obtain rfl := Option.some.inj (Input.recv.inj heq)
      exact hok _ (List.mem_cons_self ..)
    have htake : p.take sha1 (.recv (some msg)) = none := Option.map_eq_none_iff.mp hnone
    rw [htake] at hsome
    cases hsome

/-- A side that reads sees the end of the stream. -/
theorem Party.hangup_isSome (sha1 : Bytes → Bytes) {p : Party} (outbox : List PeerMessage)
    (hg : p.ctl.Consistent) (hpc : p.thread.pc.Guarded p.ctl.toMetadata)
    (hread : p.thread.pc = .read_message) : (p.turn sha1 true [] outbox .hangup).isSome := by
  have hsome : (p.take sha1 (.recv none)).isSome := by
    apply take_isSome hg hpc ?_ (advance_recv_isSome _ hread)
    intro msg heq
    cases heq
  rw [turn, if_pos (by rfl), Option.isSome_map]
  exact hsome

namespace Duo

variable {sha1 : Bytes → Bytes} {F : Bytes} {m : Metadata} {A B : Party}
  {ab ba : List PeerMessage} {d : Duo} {disk : Option Bytes}

theorem Linked.polling_A {p : Party} {ab' ba' : List PeerMessage} {ev : Event}
    (hl : m.mode = .LEECHER) (hA : A.ctl.toMetadata = m) (hd : Linked F m ⟨A, B, ab, ba⟩)
    (hpolls : A.thread.pc.Polling → A.ctl.all_done = false)
    (halone : Alone ⟨A, B, ab, ba⟩ (.A ev)) (h : A.Turned sha1 B.closed ba ab ev p ba' ab')
    (hpolling : p.thread.pc.Polling) : p.ctl.all_done = false := by
  subst hA
  cases h with
  | called _ _ c' t' hmove =>
    exact hd.leecher.polling hl hmove hpolls Input.noConfusion (fun _ => Input.noConfusion) hpolling
  | sent _ _ c' t' hmove =>
    exact hd.leecher.polling hl hmove hpolls (by simp) (fun _ => Input.noConfusion) hpolling
  | received msg _ _ c' t' hmove =>
    refine hd.leecher.polling hl hmove hpolls Input.noConfusion ?_ hpolling
    intro msg' heq
    obtain rfl := Option.some.inj (Input.recv.inj heq)
    exact hd.arrives rfl
  | hung_up _ c' t' _ hmove =>
    exact hd.leecher.polling hl hmove hpolls Input.noConfusion (by simp) hpolling
  | others => exact halone.elim

theorem reachable_polling (hl : m.mode = .LEECHER) (hg : m.Consistent) (hfit : m.CountFits)
    (ho : m.Original sha1 F)
    (h : (exchange_runs sha1 m disk F).Reachable d) :
    d.A.thread.pc.Polling → d.A.ctl.all_done = false := by
  refine System.invariant
    (I := fun d => d.A.thread.pc.Polling → d.A.ctl.all_done = false) ?_ ?_ d h
  · intro d hd
    obtain rfl : d = exchange m disk F := hd
    exact False.elim
  · intro d l d' hr hpolls hst
    have hd := reachable_linked hl hg hfit ho hr
    obtain ⟨hA, -⟩ := reachable_toMetadata hr.of_restrict
    cases next_stepped hst.2 with
    | A ev p ab ba hturn => exact hd.polling_A hl hA hpolls hst.1 hturn
    | B => exact hpolls

/-- With both sides reading, something is left to do. -/
theorem not_both_reading (hl : m.mode = .LEECHER) (hg : m.Consistent) (hfit : m.CountFits)
    (ho : m.Original sha1 F)
    (h : (exchange_runs sha1 m disk F).Reachable d) (hq : d.Quiet sha1)
    (hA : d.A.thread.pc = .read_message) : d.B.thread.pc ≠ .read_message := by
  intro hB
  have hd := reachable_linked hl hg hfit ho h
  have hc := reachable_conserved hl hg.pieces_int h.of_restrict
  obtain ⟨hmA, -⟩ : d.A.ctl.toMetadata = m ∧ d.B.ctl.toMetadata = m.seeder :=
    reachable_toMetadata h.of_restrict
  have hmore := reachable_polling hl hg hfit ho h (by rw [hA]; trivial)
  obtain ⟨hch, hnone, hfull⟩ := hq.settled hd hc hA hB
  have hleech := hd.leecher
  rw [hA] at hleech
  have hdone := all_done_of_idle (hmA ▸ hl) (hmA ▸ hg) (hmA ▸ hfit) hleech hch (hmA ▸ hfull) hnone
  rw [hmore] at hdone
  cases hdone

/-- Where no step is left, both sides have closed. -/
theorem stuck_closed (hl : m.mode = .LEECHER) (hg : m.Consistent) (hfit : m.CountFits)
    (ho : m.Original sha1 F)
    (h : (exchange_runs sha1 m disk F).Reachable d)
    (hstuck : (exchange_runs sha1 m disk F).Stuck d) :
    d.A.thread.pc = .closed ∧ d.B.thread.pc = .closed := by
  have hd := reachable_linked hl hg hfit ho h
  obtain ⟨hA, hB⟩ : d.A.ctl.toMetadata = m ∧ d.B.ctl.toMetadata = m.seeder :=
    reachable_toMetadata h.of_restrict
  have hgA : d.A.ctl.Consistent := hA ▸ hg
  have hgB : d.B.ctl.Consistent := hB ▸ hg.seeder
  have hleech := hd.leecher
  have hserve := hd.seeder
  have hnext (l : Turn) (hl : Alone d l) : d.next sha1 l = none := by
    cases hn : d.next sha1 l with
    | none => rfl
    | some d' => exact absurd ⟨hl, hn⟩ (hstuck l d')
  have hwaitA : d.A.Waiting sha1 :=
    ⟨Option.map_eq_none_iff.mp (Option.map_eq_none_iff.mp (hnext (.A .call) trivial)),
      Option.map_eq_none_iff.mp (Option.map_eq_none_iff.mp (hnext (.A .send) trivial))⟩
  have hwaitB : d.B.Waiting sha1 :=
    ⟨Option.map_eq_none_iff.mp (Option.map_eq_none_iff.mp (hnext (.B .call) trivial)),
      Option.map_eq_none_iff.mp (Option.map_eq_none_iff.mp (hnext (.B .send) trivial))⟩
  have hreadB (hpc : d.B.thread.pc = .read_message) : d.ab = [] := by
    apply Party.inbox_eq_nil hgB hserve.guarded.2 hpc ?_
      (Option.map_eq_none_iff.mp (hnext (.B .recv) trivial))
    intro msg hmsg
    have hfrom : FromLeecher m.seeder msg := hd.from_leecher msg hmsg
    rw [hB]
    exact hfrom.messageOk hg.seeder
  rcases hwaitA.rests hgA hleech.guarded.2 with hpcA | hpcA | hpcA
  · -- the leecher reads: the seeder cannot have left, and is not reading either
    have hba : d.ba = [] := by
      apply Party.inbox_eq_nil hgA hleech.guarded.2 hpcA ?_
        (Option.map_eq_none_iff.mp (hnext (.A .recv) trivial))
      intro msg hmsg
      rw [hA]
      exact (hd.from_seeder msg hmsg).messageOk hg hfit
    rcases hwaitB.rests hgB hserve.guarded.2 with hpcB | hpcB | hpcB
    · exact absurd hpcB (not_both_reading hl hg hfit ho h ⟨hreadB hpcB, hba, hwaitA, hwaitB⟩ hpcA)
    · have hgone := hd.left (by rw [hpcB]; trivial)
      rw [hpcA] at hgone
      cases hgone
    · rw [hpcB] at hserve
      exact hserve.point.elim
  · refine ⟨hpcA, ?_⟩
    rcases hwaitB.rests hgB hserve.guarded.2 with hpcB | hpcB | hpcB
    · -- the seeder reads: it sees that the leecher has closed
      have hclosed : d.A.closed = true := by
        unfold Party.closed
        rw [hpcA]
      have hsome := Party.hangup_isSome sha1 d.ba hgB hserve.guarded.2 hpcB
      have hnone := Option.map_eq_none_iff.mp (hnext (.B .hangup) trivial)
      rw [hreadB hpcB, hclosed] at hnone
      rw [hnone] at hsome
      cases hsome
    · exact hpcB
    · rw [hpcB] at hserve
      exact hserve.point.elim
  · rw [hpcA] at hleech
    exact hleech.point.elim

theorem exchange_charge (m : Metadata) (disk : Option Bytes) (F : Bytes) :
    (exchange m disk F).charge = 17 * (exchange m disk F).A.ctl.pool.card + 46 := by
  have hqueue : (exchange m disk F).A.ctl.queued (exchange m disk F).A.id = 0 := by
    show ((Function.update (fun _ => none) 0 (some ([] : List ℤ)) 0).getD []).length = 0
    rw [Function.update_self]
    rfl
  unfold charge
  rw [hqueue]
  show 17 * _ + 4 * 0 + (17 + 0) + 29 + 0 + 0 = _
  omega

theorem exchange_reachable {disk : Option Bytes} {ls : List Turn}
    (hp : (exchange_runs sha1 m disk F).Path (exchange m disk F) ls d) :
    (exchange_runs sha1 m disk F).Reachable d := hp.reachable (.init rfl)

/-- A run is no longer than what is left to do at its start. -/
theorem exchange_length_le (hl : m.mode = .LEECHER) (hg : m.Consistent) (hfit : m.CountFits)
    (ho : m.Original sha1 F) {ls : List Turn}
    (hp : (exchange_runs sha1 m disk F).Path (exchange m disk F) ls d) :
    ls.length ≤ 46 + 17 * ∑ i ∈ Finset.range m.total_pieces, m.block_count i := by
  have hlen := hp.length_le charge (fun _ _ _ hs hst => charged hl hg hfit ho hs hst) (.init rfl)
  rw [exchange_charge] at hlen
  have hpool := pool_card_le (exchange m disk F).A.ctl
  change _ ≤ ∑ i ∈ Finset.range m.total_pieces, m.block_count i at hpool
  omega

/-- And it comes to a state where no step is left. -/
theorem exchange_ends (hl : m.mode = .LEECHER) (hg : m.Consistent) (hfit : m.CountFits)
    (ho : m.Original sha1 F)
    (h : (exchange_runs sha1 m disk F).Reachable d) :
    ∃ ls d', (exchange_runs sha1 m disk F).Path d ls d' ∧
      (exchange_runs sha1 m disk F).Stuck d' :=
  System.exists_stuck charge (fun _ _ _ hs hst => charged hl hg hfit ho hs hst) h

/-- There the leecher has the file. -/
theorem exchange_end (hl : m.mode = .LEECHER) (hg : m.Consistent) (hfit : m.CountFits)
    (ho : m.Original sha1 F)
    (h : (exchange_runs sha1 m disk F).Reachable d)
    (hstuck : (exchange_runs sha1 m disk F).Stuck d) :
    d.A.closed = true ∧ d.B.closed = true ∧ d.A.ctl.wait_until_done = true ∧
      ∃ f, d.A.ctl.file = some f ∧ slice f 0 F.length = F := by
  obtain ⟨hpcA, hpcB⟩ := stuck_closed hl hg hfit ho h hstuck
  have hleech := (reachable_linked hl hg hfit ho h).leecher
  have hrange := exchange_statusRange h
  obtain ⟨hA, -⟩ : d.A.ctl.toMetadata = m ∧ d.B.ctl.toMetadata = m.seeder :=
    reachable_toMetadata h.of_restrict
  have hdone := ((all_done_iff_verified hrange).mp (hleech.finished (by rw [hpcA]; trivial))).2
  refine ⟨?_, ?_, wait_until_done_iff.mpr hdone, ?_⟩
  · unfold Party.closed
    rw [hpcA]
  · unfold Party.closed
    rw [hpcB]
  · exact hleech.delivering.file_eq (hA ▸ hg) (hA ▸ ho) hdone

/-- **Termination**: an empty leecher and a seeder, alone with each other, take
    no more steps than the size of the torrent allows, in whatever order they
    move; and where no step is left, which every run comes to, both have closed
    the connection and the leecher's file begins with the original. -/
theorem exchange_terminates (sha1 : Bytes → Bytes) {m : Metadata} {F : Bytes}
    (hl : m.mode = .LEECHER) (hg : m.Consistent) (hfit : m.CountFits) (ho : m.Original sha1 F)
    (disk : Option Bytes) {ls : List Turn} {d : Duo}
    (hp : (exchange_runs sha1 m disk F).Path (exchange m disk F) ls d) :
    ls.length ≤ 46 + 17 * ∑ i ∈ Finset.range m.total_pieces, m.block_count i ∧
      (∃ ls' d', (exchange_runs sha1 m disk F).Path d ls' d' ∧
        (exchange_runs sha1 m disk F).Stuck d') ∧
      ((exchange_runs sha1 m disk F).Stuck d →
        d.A.closed = true ∧ d.B.closed = true ∧ d.A.ctl.wait_until_done = true ∧
          ∃ f, d.A.ctl.file = some f ∧ slice f 0 F.length = F) := by
  have hr := exchange_reachable hp
  refine ⟨exchange_length_le hl hg hfit ho hp, exchange_ends hl hg hfit ho hr, ?_⟩
  intro hstuck
  exact exchange_end hl hg hfit ho hr hstuck

/-- The file arrives in two pieces. -/
theorem pair_exchange_terminates : ∃ (ls : List Turn) (d : Duo), ls.length ≤ 80 ∧
    d.A.closed = true ∧ d.B.closed = true ∧
      ∃ f, d.A.ctl.file = some f ∧ slice f 0 2 = [7, 8] := by
  have hcount : ∑ i ∈ Finset.range (pair .LEECHER [7] [8]).total_pieces,
      (pair .LEECHER [7] [8]).block_count i = 2 := by decide
  obtain ⟨-, ⟨ls, d, hp, hstuck⟩, -⟩ := exchange_terminates id rfl (pair_consistent _ _ _)
    (pair_countFits _ _ _) pair_original none (.nil _)
  obtain ⟨hlen, -, hend⟩ := exchange_terminates id rfl (pair_consistent _ _ _)
    (pair_countFits _ _ _) pair_original none hp
  obtain ⟨hA, hB, -, f, hf, hslice⟩ := hend hstuck
  rw [hcount] at hlen
  exact ⟨ls, d, hlen, hA, hB, f, hf, hslice⟩

end Duo

end BitTorrentLite
