import BitTorrentLite.Network.Clients

/-! # Delivery through the Network

    What the contract gives for every run of a network of clients: what is on
    the way is honest, no client fails, a leecher takes every block it is
    handed, and what it has finished is the original, on the disk for good.
-/

open Machine Region LTS

namespace BitTorrentLite

open Controller

/-! ## One Client of the Network -/

section clients

variable {sha1 : Bytes → Bytes} {m : Metadata} {F : Bytes} {disk : Option Bytes} {s : Swarm}

/-- The guard of a client of the network: it is fair, and reads an honest
    message. -/
def HonestRun (F : Bytes) (s : Swarm) (a : Action) : Prop :=
  s.Fair F ∧ ∀ p msg, a.reads = some (p, msg) → Honest s.ctl.toMetadata F msg

/-- Honest messages do no harm. -/
theorem messagesOk_of_honest (hm : m.Describes sha1 F)
    (h : ((Swarm.system sha1 m disk).restrict (HonestRun F)).Reachable s) :
    ((Swarm.system sha1 m disk).restrict Swarm.MessagesOk).Reachable s := by
  apply System.Reachable.restrict_mono ?_ h
  intro s a hr hrun
  have hmeta : s.ctl.toMetadata = m := Swarm.reachable_toMetadata hr
  unfold Swarm.MessagesOk
  split
  · rename_i id msg
    intro t _
    have hmsg := hrun.2 id msg rfl
    rw [hmeta] at hmsg ⊢
    exact hmsg.messageOk hm.consistent hm.fits
  · trivial

end clients

/-! ## A Leecher and a Seeder of Two Pieces -/

/-- The leecher is client `true`, the seeder client `false`. -/
def couple (F : Bytes) : Clients Bool F where
  mode := fun i => if i then .LEECHER else .SEEDER
  disk := fun i => if i then none else some F
  seeds := by
    intro i hi
    cases i with
    | true => cases hi
    | false => rfl

/-- Their network. -/
def couple_clients : Bool → Component Swarm ℕ PeerMessage Action :=
  clients id (.pair .LEECHER [7] [8]) (couple [7, 8])

theorem pair_describes : (Metadata.pair .LEECHER [7] [8]).Describes id [7, 8] where
  consistent := Metadata.pair_consistent _ _ _
  fits := Metadata.pair_countFits _ _ _
  original := Metadata.pair_original

/-- A step of the one thread of either client. -/
def leech (inp : Input) : NetEvent Bool ℕ Action := .act true (.thread 0 inp)
def seed (inp : Input) : NetEvent Bool ℕ Action := .act false (.thread 0 inp)

/-- They connect and shake hands. -/
def couple_connects : List (NetEvent Bool ℕ Action) :=
  [.act true .connect, .act false .connect, .connect (true, 0) (false, 0), leech (.shaken true),
    seed (.shaken true)]

/-- They send what they have, and the leecher its interest. -/
def couple_greets : List (NetEvent Bool ℕ Action) :=
  couple_connects ++ [leech .call, leech (.sent true), leech (.sent true), seed .call,
    seed (.sent true), seed .call, seed .call, seed (.recv (some ⟨.Bitfield, [0]⟩)), seed .call,
    seed .call, seed (.recv (some ⟨.Interested, []⟩)), seed (.sent true), seed .call, seed .call,
    leech .call, leech .call]

/-- The leecher asks for both blocks. -/
def couple_asks : List (NetEvent Bool ℕ Action) :=
  couple_greets ++ [leech (.recv (some ⟨.Bitfield, [192]⟩)), leech .call, leech .call, leech .call,
    leech .call, leech .call, leech (.recv (some ⟨.Unchoke, []⟩)), leech .call, leech (.sent true),
    leech .call, leech (.sent true), leech .call, leech .call, leech .call]

/-- The seeder sends the first one. -/
def couple_answers : List (NetEvent Bool ℕ Action) :=
  couple_asks ++ [seed (.recv (some (build_request 0 0 1))), seed .call, seed (.sent true),
    seed .call, seed .call]

/-- It sends the other one, and the leecher finishes the first piece and reads
    the second. -/
def couple_serves : List (NetEvent Bool ℕ Action) :=
  couple_answers ++ [seed (.recv (some (build_request 1 0 1))), seed .call, seed (.sent true),
    leech (.recv (some (build_piece_msg 0 0 [7]))), leech .call, leech .call, leech .call,
    leech .call, leech (.sent true), leech (.recv (some (build_piece_msg 1 0 [8])))]

/-- A computed run of the two reaches a state of their network. -/
theorem couple_reaches (evs : List (NetEvent Bool ℕ Action))
    {P : Network Bool Swarm ℕ PeerMessage → Bool}
    (h : (System.run (Network.next couple_clients) (Network.start couple_clients) evs).any P
      = true) : ∃ n, (Network.system couple_clients).Reachable n ∧ P n = true :=
  System.Reachable.exists_of_run Network.next_step (.init rfl) evs h

section network

variable {ι : Type} [DecidableEq ι] {sha1 : Bytes → Bytes} {m : Metadata} {F : Bytes}
  {cs : Clients ι F} {n n' : Network ι Swarm ℕ PeerMessage}

/-- Each client runs as it does alone, reading honest messages. -/
theorem network_alone (hm : m.Describes sha1 F)
    (h : (Network.system (clients sha1 m cs)).Reachable n) (i : ι) :
    ((Swarm.system sha1 (m.playing (cs.mode i)) (cs.disk i)).restrict
      (HonestRun F)).Reachable (n.node i) := by
  apply System.Reachable.restrict_mono ?_ (((fair_contract hm cs).sound h).alone i)
  intro s a hr hfed
  refine ⟨hfed.1, ?_⟩
  intro p msg hp
  have hmeta : s.ctl.toMetadata = m.playing (cs.mode i) := Swarm.reachable_toMetadata hr
  rw [hmeta]
  exact hfed.2 p msg hp

theorem network_toMetadata (hm : m.Describes sha1 F)
    (h : (Network.system (clients sha1 m cs)).Reachable n) (i : ι) :
    (n.node i).ctl.toMetadata = m.playing (cs.mode i) :=
  Swarm.reachable_toMetadata (network_alone hm h i).of_restrict

theorem network_fair (hm : m.Describes sha1 F)
    (h : (Network.system (clients sha1 m cs)).Reachable n) (i : ι) : (n.node i).Fair F :=
  ((fair_contract hm cs).sound h).holds i

theorem network_honest (hm : m.Describes sha1 F)
    (h : (Network.system (clients sha1 m cs)).Reachable n) :
    ∀ e, ∀ msg ∈ n.inbox e, Honest m F msg := ((fair_contract hm cs).sound h).good

theorem network_describes (hm : m.Describes sha1 F)
    (h : (Network.system (clients sha1 m cs)).Reachable n) (i : ι) :
    (n.node i).ctl.Describes sha1 F := by
  rw [network_toMetadata hm h i]
  exact hm.playing _

/-! ## Results -/

/-- A leecher that has every piece has the file. -/
theorem Swarm.Fair.file_eq {s : Swarm} (hm : s.ctl.Describes sha1 F) (h : s.Fair F)
    (hl : s.ctl.mode = .LEECHER) (hdone : s.ctl.wait_until_done = true) :
    ∃ f, s.ctl.file = some f ∧ slice f 0 F.length = F :=
  (h.stocked.leecher hl).file_eq hm.consistent hm.original (wait_until_done_iff.mp hdone)

/-- **Delivery**: in every run of a network of clients, whatever their number
    and the order of their steps, a piece a client counts as done lies on its
    disk as the original has it, a leecher stores no block but those of the
    original, and the file of a leecher that is through with
    `wait_until_done` begins with the original. -/
theorem network_delivers (hm : m.Describes sha1 F)
    (h : (Network.system (clients sha1 m cs)).Reachable n) (i : ι) :
    (∀ j < m.total_pieces, (n.node i).ctl.piece_status j = 1 → ∃ f,
      (n.node i).ctl.file = some f ∧ slice f (m.piece_start j) (m.piece_size j) = m.piece_of F j) ∧
    (cs.mode i = .LEECHER →
      (∀ j < m.total_pieces, ∀ off d, (n.node i).ctl.piece_blocks j off = some d →
        ∃ b < m.block_count j, off = Metadata.block_offset b ∧ d = m.block_of F j b) ∧
      ((n.node i).ctl.wait_until_done = true →
        ∃ f, (n.node i).ctl.file = some f ∧ slice f 0 F.length = F)) := by
  have hmeta := network_toMetadata hm h i
  have hfair := network_fair hm h i
  have hdesc := network_describes hm h i
  refine ⟨?_, ?_⟩
  · intro j hj hone
    have hheld := hfair.stocked.done j (by rw [hmeta]; exact hj) hone
    obtain ⟨-, f, hf, -, hslice⟩ := hheld
    rw [hmeta] at hslice
    exact ⟨f, hf, hslice⟩
  · intro hl
    have hl' : (n.node i).ctl.mode = .LEECHER := by
      rw [hmeta]
      exact hl
    refine ⟨?_, hfair.file_eq hdesc hl'⟩
    have hgen := (hfair.stocked.leecher hl').genuine
    unfold Genuine at hgen
    rw [hmeta] at hgen
    exact hgen

/-- The leecher has the file once both blocks have come in. -/
theorem couple_delivers : ∃ n : Network Bool Swarm ℕ PeerMessage,
    (n.node true).ctl.wait_until_done = true ∧
      ∃ f, (n.node true).ctl.file = some f ∧ slice f 0 2 = [7, 8] := by
  obtain ⟨n, hr, hdone⟩ := couple_reaches (couple_serves ++ [leech .call])
    (P := fun n => (n.node true).ctl.wait_until_done) (by decide +kernel)
  exact ⟨n, hdone, ((network_delivers pair_describes hr true).2 rfl).2 hdone⟩

/-- **What is said**: every message on its way between two clients is honest. -/
theorem network_speaks (hm : m.Describes sha1 F)
    (h : (Network.system (clients sha1 m cs)).Reachable n) :
    ∀ e, ∀ msg ∈ n.inbox e, Honest m F msg := network_honest hm h

/-- The seeder's Bitfield. -/
theorem couple_speaks : ∃ n : Network Bool Swarm ℕ PeerMessage,
    ⟨.Bitfield, [192]⟩ ∈ n.inbox (true, 0) ∧
      Honest (.pair .LEECHER [7] [8]) [7, 8] ⟨.Bitfield, [192]⟩ := by
  obtain ⟨n, hr, hbox⟩ := couple_reaches couple_greets
    (P := fun n => decide (⟨.Bitfield, [192]⟩ ∈ n.inbox (true, 0))) (by decide +kernel)
  have hmem := of_decide_eq_true hbox
  exact ⟨n, hmem, network_speaks pair_describes hr _ _ hmem⟩

/-- **Durability**: a piece of the original on the disk of a client is there in
    every later state, also when its status is taken back. -/
theorem network_keeps (hm : m.Describes sha1 F)
    (h : (Network.system (clients sha1 m cs)).Reachable n)
    {evs : List (NetEvent ι ℕ Action)} (hp : (Network.system (clients sha1 m cs)).Path n evs n')
    (i : ι) (j : ℕ) (hj : (n.node i).ctl.Held F j) : (n'.node i).ctl.Held F j := by
  refine (hp.stable (P := fun n => (Network.system (clients sha1 m cs)).Reachable n ∧
    (n.node i).ctl.Held F j) ?_ ⟨h, hj⟩).2
  intro n ev n' hn hst
  obtain ⟨hr, hheld⟩ := hn
  refine ⟨.step hr hst, ?_⟩
  rcases (Network.next_stepped hst).node with hnode | ⟨k, a, s, -, hs, hnode, -⟩
  · rw [hnode]
    exact hheld
  · rw [hnode]
    by_cases hik : i = k
    · subst hik
      rw [Function.update_self]
      exact (network_fair hm hr i).held (network_describes hm hr i) (Swarm.next_stepped hs) hheld
    · rw [Function.update_of_ne hik]
      exact hheld

/-- The first piece stays on the disk while the second is written. -/
theorem couple_keeps : ∃ n n' : Network Bool Swarm ℕ PeerMessage,
    (Network.system couple_clients).Path n [leech .call] n' ∧
      (n'.node true).ctl.Held [7, 8] 0 := by
  obtain ⟨n, hr, hP⟩ := couple_reaches couple_serves
    (P := fun n => (n.node true).ctl.piece_status 0 == 1 &&
      (System.run (Network.next couple_clients) n [leech .call]).isSome) (by decide +kernel)
  rw [Bool.and_eq_true, beq_iff_eq] at hP
  obtain ⟨n', hrun⟩ := Option.isSome_iff_exists.mp hP.2
  have hp : (Network.system couple_clients).Path n [leech .call] n' :=
    .of_run Network.next_step hrun
  have hmeta := network_toMetadata pair_describes hr true
  have hheld := (network_fair pair_describes hr true).stocked.done 0
    (by rw [hmeta]; exact Nat.two_pos) hP.1
  exact ⟨n, n', hp, network_keeps pair_describes hr hp true 0 hheld⟩

/-- The step is one of the client's: what it reads is the next message before
    its port. -/
def Allows (n : Network ι Swarm ℕ PeerMessage) (i : ι) (a : Action) : Prop :=
  ∀ p msg, a.reads = some (p, msg) → ∃ rest, n.inbox (i, p) = msg :: rest

/-- No step that the network allows fails. -/
theorem client_no_fault (hm : m.Describes sha1 F)
    (h : (Network.system (clients sha1 m cs)).Reachable n) {i : ι} {a : Action}
    (hallows : Allows n i a) (e : Fault) : (n.node i).exec sha1 a ≠ some (.error e) := by
  intro hfault
  have hdesc := network_describes hm h i
  have hguard := Swarm.reachable_guarded (hm.playing _).consistent
    (messagesOk_of_honest (hm.playing _) (network_alone hm h i))
  cases a with
  | connect => cases hfault
  | thread id inp =>
    obtain ⟨t, ht, hmap⟩ := Option.bind_eq_some_iff.mp hfault
    obtain ⟨r, hadv, hr⟩ := Option.map_eq_some_iff.mp hmap
    refine map_no_fault (x := r) (fun e => ?_) e hr
    intro hrerr
    rw [hrerr] at hadv
    apply advance_no_fault hdesc.consistent (hguard id t ht).2 ?_ e hadv
    intro msg hinp
    subst hinp
    obtain ⟨rest, hbox⟩ := hallows id msg rfl
    have hmsg := network_honest hm h (i, id) msg (by rw [hbox]; exact List.mem_cons_self ..)
    have hmeta := network_toMetadata hm h i
    have hmsg' : Honest (n.node i).ctl.toMetadata F msg := by
      rw [hmeta]
      exact hmsg
    exact hmsg'.messageOk hdesc.consistent hdesc.fits

/-- **Survival**: no step of a client fails in a network of clients, and the
    `int` arithmetic of `received_block` and `get_block` does not overflow. -/
theorem network_survives (hm : m.Describes sha1 F)
    (h : (Network.system (clients sha1 m cs)).Reachable n) (i : ι) :
    (∀ a, Allows n i a → ∀ e, (n.node i).exec sha1 a ≠ some (.error e)) ∧
      ∀ id t, (n.node i).threads id = some t → t.pc.Fits (n.node i).ctl := by
  refine ⟨fun a hallows e => client_no_fault hm h hallows e, ?_⟩
  intro id t ht
  have hguard := Swarm.reachable_guarded (hm.playing _).consistent
    (messagesOk_of_honest (hm.playing _) (network_alone hm h i))
  exact (hguard id t ht).2.fits (network_describes hm h i).consistent

/-- The leecher reads the second block. -/
theorem couple_survives : ∃ n : Network Bool Swarm ℕ PeerMessage,
    ∀ e, (n.node true).exec id (.thread 0 (.recv (some (build_piece_msg 1 0 [8]))))
      ≠ some (.error e) := by
  obtain ⟨n, hr, hbox⟩ := couple_reaches (couple_serves.dropLast)
    (P := fun n => n.inbox (true, 0) == [build_piece_msg 1 0 [8]]) (by decide +kernel)
  refine ⟨n, (network_survives pair_describes hr true).1 _ ?_⟩
  intro p msg hread
  obtain ⟨rfl, hrecv⟩ := Action.reads_eq hread
  obtain rfl := Option.some.inj (Input.recv.inj hrecv)
  exact ⟨[], eq_of_beq hbox⟩

/-- **No block is wasted**: `received_block` of a leecher in a network of clients
    takes every block it is handed; and when the piece is complete, it is the
    original's, so it is written and announced. -/
theorem network_accepts (hm : m.Describes sha1 F)
    (h : (Network.system (clients sha1 m cs)).Reachable n) {i : ι} (hl : cs.mode i = .LEECHER)
    {id : ℕ} {st : PeerState} {x off : ℤ} {data : Bytes}
    (ht : (n.node i).threads id = some ⟨st, .received x off data⟩) :
    ∃ j < m.total_pieces, x = j ∧ ∃ c' done,
      (n.node i).ctl.received_block sha1 x off data = .ok (c', done) ∧
      ((c' = (n.node i).ctl.store j off data ∧ c'.complete j = false) ∨
        (c' = (n.node i).ctl.finish j off data ∧
          ((n.node i).ctl.store j off data).assembled j = m.piece_of F j)) := by
  have hmeta := network_toMetadata hm h i
  have hfair := network_fair hm h i
  obtain ⟨hg, hfit, ho⟩ := network_describes hm h i
  have hl' : (n.node i).ctl.mode = .LEECHER := by
    rw [hmeta]
    exact hl
  obtain ⟨j, hj, b, hb, rfl, rfl, rfl⟩ := hfair.speaks id _ ht
  have hgen := (hfair.stocked.leecher hl').genuine
  have htaken : ∃ r, (n.node i).ctl.received_block sha1 j (Metadata.block_offset b)
      ((n.node i).ctl.block_of F j b) = .ok r := received_block_natCast hj
  obtain ⟨⟨c', done⟩, hrec⟩ := htaken
  refine ⟨j, by rw [hmeta] at hj; exact hj, rfl, c', done, hrec, ?_⟩
  rcases received_genuine hg hfit ho hl' hgen hj hb (received_block_ok hrec) with
    hstored | ⟨hfinished, hcomp⟩
  · exact .inl hstored
  · refine .inr ⟨hfinished, ?_⟩
    have hassembled := hgen.assembled_store hg hfit ho hj hb hcomp
    rw [hassembled, hmeta]
    rfl

/-- The block a thread is about to hand over. -/
def PC.handed : PC → Option (ℤ × ℤ × Bytes)
  | .received x off data => some (x, off, data)
  | _ => none

theorem PC.handed_eq {pc : PC} {x off : ℤ} {data : Bytes} (h : pc.handed = some (x, off, data)) :
    pc = .received x off data := by
  cases pc with
  | received =>
    cases h
    rfl
  | _ => cases h

/-- The leecher takes the second block. -/
theorem couple_accepts : ∃ (n : Network Bool Swarm ℕ PeerMessage) (c' : Controller) (done : Bool),
    (n.node true).ctl.received_block id 1 0 [8] = .ok (c', done) := by
  obtain ⟨n, hr, hP⟩ := couple_reaches couple_serves
    (P := fun n => ((n.node true).threads 0).any fun t => t.pc.handed == some (1, 0, [8]))
    (by decide +kernel)
  obtain ⟨t, ht, hpc⟩ := (Option.any_eq_true _ _).mp hP
  have ht' : (n.node true).threads 0 = some ⟨t.state, .received 1 0 [8]⟩ := by
    rw [ht, ← PC.handed_eq (eq_of_beq hpc)]
  obtain ⟨_, _, _, c', done, hrec, -⟩ := network_accepts pair_describes hr rfl ht'
  exact ⟨n, c', done, hrec⟩

end network

end BitTorrentLite
