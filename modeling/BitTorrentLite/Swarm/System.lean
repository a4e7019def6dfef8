import BitTorrentLite.Controller.System
import BitTorrentLite.Peer.Spec

/-! # A Client and Its Peers

    One controller and any number of peer threads, each at its own point of
    the loop. A step starts a thread for a new connection or takes one thread
    one operation further. Which thread, what the peer sent and whether a send
    succeeds are free, so the runs are all interleavings with any peers.
-/

open Machine LTS

namespace BitTorrentLite

/-- A client: the controller and the thread of each peer id handed out. -/
structure Swarm where
  ctl : Controller
  threads : ℕ → Option Thread

/-- The steps of a client. -/
inductive Action where
  /-- A connection: `register_peer`, then the handshake. -/
  | connect
  | thread (id : ℕ) (inp : Input)

namespace Swarm

open Controller

/-- A client that has no connection yet. -/
def start (m : Metadata) (disk : Option Bytes) : Swarm := ⟨make m disk, fun _ => none⟩

/-- The thread `id` goes on as `t`. -/
def resume (s : Swarm) (c : Controller) (id : ℕ) (t : Thread) : Swarm :=
  ⟨c, Function.update s.threads id (some t)⟩

/-- One step: `none` when it is not possible, a fault when the program does
    not survive it. -/
def exec (sha1 : Bytes → Bytes) (s : Swarm) : Action → Option (Except Fault Swarm)
  | .connect =>
    let (c, id) := s.ctl.register_peer
    some (.ok (s.resume c id ⟨{}, .handshake⟩))
  | .thread id inp => (s.threads id).bind fun t =>
    (t.advance sha1 s.ctl id inp).map fun r => r.map fun (c, t) => s.resume c id t

/-- The state after a step that is possible and does not fail. -/
def next (sha1 : Bytes → Bytes) (s : Swarm) (a : Action) : Option Swarm :=
  (s.exec sha1 a).bind Except.toOption

/-- The runs of a client. -/
def system (sha1 : Bytes → Bytes) (m : Metadata) (disk : Option Bytes) : System Swarm Action where
  init := fun s => s = start m disk
  step := fun s a s' => s.next sha1 a = some s'

/-- What one step of a client can do. -/
inductive Stepped (sha1 : Bytes → Bytes) (s : Swarm) : Action → Swarm → Prop where
  | connected : Stepped sha1 s .connect
      (s.resume s.ctl.register_peer.1 s.ctl.crnt_peer ⟨{}, .handshake⟩)
  | moved (id : ℕ) (inp : Input) (t t' : Thread) (c' : Controller) : s.threads id = some t →
      Move sha1 s.ctl id t.state t.pc inp c' t'.state t'.pc →
      Stepped sha1 s (.thread id inp) (s.resume c' id t')

theorem next_stepped {sha1 : Bytes → Bytes} {s s' : Swarm} {a : Action}
    (h : s.next sha1 a = some s') : Stepped sha1 s a s' := by
  obtain ⟨r, hr, hs'⟩ := Option.bind_eq_some_iff.mp h
  cases r with
  | error e => cases hs'
  | ok d =>
    obtain rfl := Option.some.inj hs'
    cases a with
    | connect =>
      cases hr
      exact .connected
    | thread id inp =>
      obtain ⟨t, ht, hr⟩ := Option.bind_eq_some_iff.mp hr
      obtain ⟨r, hadv, hr⟩ := Option.map_eq_some_iff.mp hr
      obtain ⟨⟨c', t'⟩, rfl, rfl⟩ := map_ok hr
      exact .moved id inp t t' c' ht (advance_move hadv)

variable {sha1 : Bytes → Bytes} {m : Metadata} {disk : Option Bytes} {s s' : Swarm} {a : Action}

theorem resume_threads_self (s : Swarm) (c : Controller) (id : ℕ) (t : Thread) :
    (s.resume c id t).threads id = some t := Function.update_self ..

theorem resume_threads_ne (s : Swarm) (c : Controller) {id id' : ℕ} (t : Thread) (h : id' ≠ id) :
    (s.resume c id t).threads id' = s.threads id' := Function.update_of_ne h ..

/-- The threads of a client after a step: the one that moved, or another one
    as it was. -/
theorem resume_threads {c : Controller} {id id' : ℕ} {t t' : Thread}
    (h : (s.resume c id t).threads id' = some t') :
    (id' = id ∧ t' = t) ∨ (id' ≠ id ∧ s.threads id' = some t') := by
  by_cases hid : id' = id
  · subst hid
    rw [resume_threads_self] at h
    exact .inl ⟨rfl, (Option.some.inj h).symm⟩
  · rw [resume_threads_ne _ _ _ hid] at h
    exact .inr ⟨hid, h⟩

end Swarm

/-! ## The Controller of a Client -/

namespace Swarm

open Controller

variable {sha1 : Bytes → Bytes} {m : Metadata} {disk : Option Bytes} {s s' : Swarm} {a : Action}

theorem Stepped.controller (h : Stepped sha1 s a s') : Controller.Stepped sha1 s.ctl s'.ctl := by
  cases h with
  | connected => exact .queues _ _
  | moved id inp t t' c' _ hmove => exact hmove.stepped

/-- **Projection**: what every method of the controller keeps holds of the
    controller of a client in every reachable state. -/
theorem controller_invariant {I : Controller → Prop} (hinit : I (make m disk))
    (hstep : ∀ c c', I c → Controller.Stepped sha1 c c' → I c')
    (h : (system sha1 m disk).Reachable s) : I s.ctl := by
  refine System.invariant (I := fun s => I s.ctl) ?_ ?_ s h
  · rintro s rfl
    exact hinit
  · intro s a s' _ hs hst
    exact hstep _ _ hs (next_stepped hst).controller

theorem reachable_toMetadata (h : (system sha1 m disk).Reachable s) : s.ctl.toMetadata = m :=
  controller_invariant (I := fun c => c.toMetadata = m) rfl
    (fun _ _ hc hst => hst.toMetadata.trans hc) h

/-- Ids are handed out once: every thread has one below the next. -/
theorem reachable_fresh (h : (system sha1 m disk).Reachable s) :
    ∀ id t, s.threads id = some t → id < s.ctl.crnt_peer := by
  refine System.invariant
    (I := fun s : Swarm => ∀ id t, s.threads id = some t → id < s.ctl.crnt_peer) ?_ ?_ s h
  · rintro s rfl id t ht
    cases ht
  · intro s a s' _ hs hst id t ht
    cases next_stepped hst with
    | connected =>
      rcases resume_threads ht with ⟨rfl, -⟩ | ⟨-, ht⟩
      · exact Nat.lt_succ_self _
      · exact Nat.lt_succ_of_lt (hs id t ht)
    | moved id' inp t₀ t' c' ht₀ hmove =>
      change id < c'.crnt_peer
      rw [hmove.crnt_peer]
      rcases resume_threads ht with ⟨rfl, -⟩ | ⟨-, ht⟩
      · exact hs id t₀ ht₀
      · exact hs id t ht

/-- A computed step is a step. -/
theorem next_step (s : Swarm) (a : Action) (s' : Swarm) (h : s.next sha1 a = some s') :
    (system sha1 m disk).step s a s' := h

/-! ## Waiting Threads -/

/-- Every live peer thread is waiting in `read_message`. -/
def AllWaiting (s : Swarm) : Prop :=
  ∀ id t, s.threads id = some t → t.pc = .closed ∨ t.pc = .read_message

/-- `AllWaiting`, computed over the ids handed out. -/
def all_waiting (s : Swarm) : Bool :=
  (List.range s.ctl.crnt_peer).all fun id => (s.threads id).all fun t => t.pc.at_rest

theorem allWaiting_of_computed (h : (system sha1 m disk).Reachable s)
    (hw : s.all_waiting = true) : s.AllWaiting := by
  intro id t ht
  have hid := List.all_eq_true.mp hw id (List.mem_range.mpr (reachable_fresh h id t ht))
  rw [ht, Option.all_some] at hid
  cases hpc : t.pc <;> rw [hpc] at hid <;> first | exact .inl rfl | exact .inr rfl | cases hid

/-- The first steps of a leecher with no piece yet and a new peer `id`, up to
    `read_message`. -/
def greet (id : ℕ) : List Action :=
  [.connect, .thread id (.shaken true), .thread id .call, .thread id (.sent true),
    .thread id (.sent true), .thread id .call, .thread id .call]

/-- The message `msg` arrives from peer `id`; its handler takes the steps
    `inps`, and two more lead to the next `read_message`. -/
def hear (id : ℕ) (msg : PeerMessage) (inps : List Input) : List Action :=
  (.recv (some msg) :: (inps ++ [.call, .call])).map fun inp => .thread id inp

/-- Of a file of two bytes in two pieces, a peer with both is asked for them and
    delivers the first, for which a Have is sent. -/
def first_of_pair : List Action :=
  greet 0 ++ hear 0 ⟨.Bitfield, [192]⟩ [.call, .call, .call]
    ++ hear 0 ⟨.Unchoke, []⟩ [.call, .sent true, .call, .sent true, .call]
    ++ hear 0 (build_piece_msg 0 0 [7]) [.call, .call] ++ [.thread 0 (.sent true)]

end Swarm

end BitTorrentLite
