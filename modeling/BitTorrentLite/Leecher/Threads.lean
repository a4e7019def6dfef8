import BitTorrentLite.Base.Descriptors
import BitTorrentLite.LTS.System

/-! # The Threads of a Leecher

    What `run_leecher` and the threads it starts do with the descriptors of
    their connections. The main thread connects to the peers of the tracker,
    the LPD thread to those it discovers, and the listener accepts the others;
    each connection is handed to a thread of its own, which closes it at the
    end. When the download is complete the main thread closes the listening
    socket, shuts down and closes what it connected to, and joins the threads.

    The threads take turns in any order. What happens under `threads_mutex` is
    one step; the main thread keeps the mutex while it joins.
-/

open LTS Descriptors

namespace BitTorrentLite

namespace Leecher

/-! ## State -/

/-- What a descriptor can refer to; connections are numbered as they come. -/
inductive Object where
  | listening
  | other
  | conn (k : ℕ)
  deriving DecidableEq

/-- Which thread made a connection. -/
inductive Origin where
  | tracker
  | lpd
  | inbound
  deriving DecidableEq

/-- A thread in `all_threads`: it ends with `close(fd)`. -/
structure PeerThread where
  handle : Handle Object
  origin : Origin
  running : Bool
  deriving DecidableEq

/-- The main thread, from the connect loop on. -/
inductive MainPhase where
  /-- There is nothing to connect to. -/
  | no_peers
  /-- So many peers are still to be connected to. -/
  | connecting (left : ℕ)
  | handing (h : Handle Object) (left : ℕ)
  /-- In `wait_until_done`. -/
  | waiting
  | done
  /-- About to shut down entry `i` of `SocketList`, and about to close it. -/
  | shutting (i : ℕ)
  | closing (i : ℕ)
  | locking
  /-- About to join thread `i` of `all_threads`. -/
  | joining (i : ℕ)
  | returned
  /-- The way out without peers. -/
  | leaving
  | left
  deriving DecidableEq

/-- `listener_thread`. -/
inductive ListenerPhase where
  | calling
  | accepting
  | accepted (h : Handle Object)
  | exited
  deriving DecidableEq

/-- `lpd_listen_thread`, which never ends. -/
inductive LpdPhase where
  | scanning
  | connected (h : Handle Object)
  deriving DecidableEq

/-- A call of `close` on the descriptor of a connection, and what the number
    referred to then. -/
structure Closing where
  handle : Handle Object
  target : Option Object
  deriving DecidableEq

/-- The state of the process. -/
structure Process where
  fds : Table Object
  listening_socket : ℕ
  /-- How many connections were made so far. -/
  made : ℕ
  /-- What was shut down so far. -/
  shut : List Object
  main : MainPhase
  /-- A negative result of `connect_to` is kept too, as `none`. -/
  SocketList : List (Option (Handle Object))
  listener : ListenerPhase
  lpd : LpdPhase
  all_threads : List PeerThread
  /-- The calls of `close` for connections, in order. -/
  closings : List Closing

namespace Process

variable (p : Process)

/-- The next connection, with the number it gets. -/
def next (fd : ℕ) : Handle Object := ⟨fd, .conn p.made⟩

/-- A connection is made, by `connect_to` or `accept`. -/
def opened (fd : ℕ) : Process :=
  { p with fds := p.fds.put fd (.conn p.made), made := p.made + 1 }

/-- `all_threads.emplace_back`. -/
def started (h : Handle Object) (origin : Origin) : Process :=
  { p with all_threads := p.all_threads ++ [⟨h, origin, true⟩] }

/-- `shutdown(id, SHUT_RDWR)`: of whatever the number refers to, if it is one. -/
def shutdown (x : Option (Handle Object)) : Process :=
  { p with shut := (x.bind fun h => p.fds h.fd).toList ++ p.shut }

/-- `close(id)`: of whatever the number refers to, if it is one. -/
def close (x : Option (Handle Object)) : Process :=
  { p with
    fds := x.elim p.fds fun h => p.fds.close h.fd
    closings := p.closings ++ (x.map fun h => ⟨h, p.fds h.fd⟩).toList }

end Process

/-- The main thread has the mutex. -/
def MainPhase.Locked : MainPhase → Prop
  | .joining _ => True
  | .returned => True
  | _ => False

instance (m : MainPhase) : Decidable m.Locked := by
  cases m <;> unfold MainPhase.Locked <;> infer_instance

/-! ## Steps -/

/-- The steps of the threads. -/
inductive Act where
  | connect (fd : Option ℕ)
  | hand
  | wait
  | wake
  | close_listening
  | shutdown
  | close
  | join_listener
  | lock
  | join
  | leave
  | accept_call
  | accept (fd : Option ℕ)
  | hand_inbound
  | discover (fd : ℕ)
  | hand_lpd
  | finish (i : ℕ)
  | open_other (fd : ℕ)
  | close_other (fd : ℕ)
  deriving DecidableEq

/-- What one step can do. A new descriptor gets a number that is free. -/
inductive Step : Process → Act → Process → Prop
  -- the main thread: `SocketList` gets the result of `connect_to` before it is looked at
  | connected {p k fd} : p.main = .connecting (k + 1) → p.fds fd = none →
      Step p (.connect (some fd)) { p.opened fd with
        SocketList := p.SocketList ++ [some (p.next fd)], main := .handing (p.next fd) k }
  | refused {p k} : p.main = .connecting (k + 1) → Step p (.connect none)
      { p with SocketList := p.SocketList ++ [none], main := .connecting k }
  | handed {p h k} : p.main = .handing h k → Step p .hand
      { p.started h .tracker with main := .connecting k }
  | all_connected {p} : p.main = .connecting 0 → Step p .wait { p with main := .waiting }
  | woken {p} : p.main = .waiting → Step p .wake { p with main := .done }
  | closed_listening {p} : p.main = .done → Step p .close_listening
      { p with fds := p.fds.close p.listening_socket, main := .shutting 0 }
  | shut_down {p i x} : p.main = .shutting i → p.SocketList[i]? = some x → Step p .shutdown
      { p.shutdown x with main := .closing i }
  | closed {p i x} : p.main = .closing i → p.SocketList[i]? = some x → Step p .close
      { p.close x with main := .shutting (i + 1) }
  | joined_listener {p i} : p.main = .shutting i → i = p.SocketList.length →
      p.listener = .exited → Step p .join_listener { p with main := .locking }
  | locked {p} : p.main = .locking → Step p .lock { p with main := .joining 0 }
  | joined {p i w} : p.main = .joining i → p.all_threads[i]? = some w → w.running = false →
      Step p .join { p with main := .joining (i + 1) }
  | returned {p i} : p.main = .joining i → i = p.all_threads.length → Step p .leave
      { p with main := .returned }
  | gave_up {p} : p.main = .no_peers → Step p .close_listening
      { p with fds := p.fds.close p.listening_socket, main := .leaving }
  | left {p} : p.main = .leaving → p.listener = .exited → Step p .join_listener
      { p with main := .left }
  -- the listener: `accept` may be waiting already when the socket is closed
  | accept_called {p} : p.listener = .calling →
      p.fds p.listening_socket = some .listening → Step p .accept_call
      { p with listener := .accepting }
  | accept_refused {p} : p.listener = .calling →
      p.fds p.listening_socket ≠ some .listening → Step p .accept_call
      { p with listener := .exited }
  | accepted {p fd} : p.listener = .accepting → p.fds fd = none → Step p (.accept (some fd))
      { p.opened fd with listener := .accepted (p.next fd) }
  | accept_failed {p} : p.listener = .accepting → Step p (.accept none)
      { p with listener := .exited }
  | inbound_handed {p h} : p.listener = .accepted h → ¬ p.main.Locked → Step p .hand_inbound
      { p.started h .inbound with listener := .calling }
  -- the LPD thread
  | discovered {p fd} : p.lpd = .scanning → p.main ≠ .returned → p.fds fd = none →
      Step p (.discover fd) { p.opened fd with lpd := .connected (p.next fd) }
  | lpd_handed {p h} : p.lpd = .connected h → ¬ p.main.Locked → Step p .hand_lpd
      { p.started h .lpd with lpd := .scanning }
  -- a peer thread, at the end of its `peer_worker` or `inbound_peer_worker`
  | finished {p l w r} : p.all_threads = l ++ w :: r → w.running = true →
      Step p (.finish l.length)
      { p.close (some w.handle) with all_threads := l ++ { w with running := false } :: r }
  -- the rest of the process
  | opened_other {p fd} : p.fds fd = none → Step p (.open_other fd)
      { p with fds := p.fds.put fd .other }
  | closed_other {p fd} : p.fds fd = some .other → Step p (.close_other fd)
      { p with fds := p.fds.close fd }

/-- The state in which the threads have just been started: there may be other
    descriptors, and any number of peers to connect to. -/
structure Started (p : Process) : Prop where
  listening : p.fds p.listening_socket = some .listening
  fds : ∀ fd k, p.fds fd ≠ some (.conn k)
  made : p.made = 0
  shut : p.shut = []
  main : p.main = .no_peers ∨ ∃ k, p.main = .connecting k
  SocketList : p.SocketList = []
  listener : p.listener = .calling
  lpd : p.lpd = .scanning
  all_threads : p.all_threads = []
  closings : p.closings = []

/-- The runs of a leecher. -/
def leecher : System Process Act := ⟨Started, Step⟩

/-! ## Executing Steps -/

/-- A step of the main thread. -/
def exec_main (p : Process) : Act → MainPhase → Option Process
  | .connect (some fd), .connecting (k + 1) =>
    if p.fds fd = none then some { p.opened fd with
      SocketList := p.SocketList ++ [some (p.next fd)], main := .handing (p.next fd) k }
    else none
  | .connect none, .connecting (k + 1) =>
    some { p with SocketList := p.SocketList ++ [none], main := .connecting k }
  | .hand, .handing h k => some { p.started h .tracker with main := .connecting k }
  | .wait, .connecting 0 => some { p with main := .waiting }
  | .wake, .waiting => some { p with main := .done }
  | .close_listening, .done =>
    some { p with fds := p.fds.close p.listening_socket, main := .shutting 0 }
  | .shutdown, .shutting i =>
    (p.SocketList[i]?).map fun x => { p.shutdown x with main := .closing i }
  | .close, .closing i =>
    (p.SocketList[i]?).map fun x => { p.close x with main := .shutting (i + 1) }
  | .join_listener, .shutting i =>
    if i = p.SocketList.length ∧ p.listener = .exited then some { p with main := .locking }
    else none
  | .lock, .locking => some { p with main := .joining 0 }
  | .join, .joining i =>
    if (p.all_threads[i]?).any (fun w => !w.running) then some { p with main := .joining (i + 1) }
    else none
  | .leave, .joining i =>
    if i = p.all_threads.length then some { p with main := .returned } else none
  | _, _ => none

/-- A step of the listener. -/
def exec_listener (p : Process) : Act → ListenerPhase → Option Process
  | .accept_call, .calling =>
    if p.fds p.listening_socket = some .listening then some { p with listener := .accepting }
    else some { p with listener := .exited }
  | .accept (some fd), .accepting =>
    if p.fds fd = none then some { p.opened fd with listener := .accepted (p.next fd) } else none
  | .hand_inbound, .accepted h =>
    if ¬ p.main.Locked then some { p.started h .inbound with listener := .calling } else none
  | _, _ => none

/-- The end of a peer thread. -/
def exec_finish (p : Process) (i : ℕ) : Option Process :=
  match p.all_threads.drop i with
  | w :: r =>
    if w.running = true then some { p.close (some w.handle) with
      all_threads := p.all_threads.take i ++ { w with running := false } :: r }
    else none
  | [] => none

/-- One step, as far as the runs below need them. -/
def exec (p : Process) (a : Act) : Option Process :=
  match a with
  | .accept_call | .accept _ | .hand_inbound => exec_listener p a p.listener
  | .finish i => exec_finish p i
  | _ => exec_main p a p.main

theorem exec_main_step {p p' : Process} {a : Act} (h : exec_main p a p.main = some p') :
    Step p a p' := by
  unfold exec_main at h
  split at h
  case h_1 hmain =>
    split at h
    · rename_i hfree
      obtain rfl := Option.some.inj h
      exact .connected hmain hfree
    · cases h
  case h_2 hmain =>
    obtain rfl := Option.some.inj h
    exact .refused hmain
  case h_3 hmain =>
    obtain rfl := Option.some.inj h
    exact .handed hmain
  case h_4 hmain =>
    obtain rfl := Option.some.inj h
    exact .all_connected hmain
  case h_5 hmain =>
    obtain rfl := Option.some.inj h
    exact .woken hmain
  case h_6 hmain =>
    obtain rfl := Option.some.inj h
    exact .closed_listening hmain
  case h_7 hmain =>
    obtain ⟨x, hx, rfl⟩ := Option.map_eq_some_iff.mp h
    exact .shut_down hmain hx
  case h_8 hmain =>
    obtain ⟨x, hx, rfl⟩ := Option.map_eq_some_iff.mp h
    exact .closed hmain hx
  case h_9 hmain =>
    split at h
    · rename_i hall
      obtain rfl := Option.some.inj h
      exact .joined_listener hmain hall.1 hall.2
    · cases h
  case h_10 hmain =>
    obtain rfl := Option.some.inj h
    exact .locked hmain
  case h_11 hmain =>
    split at h
    · rename_i hany
      obtain rfl := Option.some.inj h
      obtain ⟨w, hw, hended⟩ := (Option.any_eq_true _ _).mp hany
      exact .joined hmain hw (by simpa using hended)
    · cases h
  case h_12 hmain =>
    split at h
    · rename_i hall
      obtain rfl := Option.some.inj h
      exact .returned hmain hall
    · cases h
  case h_13 => cases h

theorem exec_listener_step {p p' : Process} {a : Act}
    (h : exec_listener p a p.listener = some p') : Step p a p' := by
  unfold exec_listener at h
  split at h
  case h_1 hlistener =>
    split at h
    · rename_i hopen
      obtain rfl := Option.some.inj h
      exact .accept_called hlistener hopen
    · rename_i hclosed
      obtain rfl := Option.some.inj h
      exact .accept_refused hlistener hclosed
  case h_2 hlistener =>
    split at h
    · rename_i hfree
      obtain rfl := Option.some.inj h
      exact .accepted hlistener hfree
    · cases h
  case h_3 hlistener =>
    split at h
    · rename_i hfree
      obtain rfl := Option.some.inj h
      exact .inbound_handed hlistener hfree
    · cases h
  case h_4 => cases h

theorem exec_finish_step {p p' : Process} {i : ℕ} (h : exec_finish p i = some p') :
    Step p (.finish i) p' := by
  unfold exec_finish at h
  split at h
  · rename_i w r hdrop
    split at h
    · rename_i hrunning
      obtain rfl := Option.some.inj h
      have hlt : i < p.all_threads.length := by
        have hlen := congrArg List.length hdrop
        rw [List.length_drop, List.length_cons] at hlen
        omega
      have hsplit : p.all_threads = p.all_threads.take i ++ w :: r := by
        rw [← hdrop, List.take_append_drop]
      have hi : (p.all_threads.take i).length = i := by
        rw [List.length_take]
        omega
      have hstep := Step.finished hsplit hrunning
      rwa [hi] at hstep
    · cases h
  · cases h

theorem exec_step (p : Process) (a : Act) (p' : Process) (h : exec p a = some p') :
    leecher.step p a p' := by
  unfold exec at h
  split at h
  · exact exec_listener_step h
  · exact exec_listener_step h
  · exact exec_listener_step h
  · exact exec_finish_step h
  · exact exec_main_step h

end Leecher

end BitTorrentLite
