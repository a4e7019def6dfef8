import BitTorrentLite.Leecher.Ownership

/-! # Shutdown

    The last loop of the main thread shuts down what it connected to itself, so
    that those threads cannot stay blocked; the other threads it joins as they
    are. It also closes what it shuts down, and so does the thread the
    connection was handed to, whichever comes first.
-/

open LTS Descriptors

namespace BitTorrentLite

namespace Leecher

/-! ## The Two Properties -/

/-- While the main thread joins, the threads that still run have had their
    sockets shut down. -/
def ShutDown (p : Process) : Prop :=
  p.main.Locked → ∀ w ∈ p.all_threads, w.running = true → w.handle.obj ∈ p.shut

/-- When the main thread starts to join, only peers of the tracker are still
    served. -/
def OwnPeersOnly (p : Process) : Act → Prop
  | .lock => ∀ w ∈ p.all_threads, w.running = true → w.origin = .tracker
  | _ => True

/-- In addition, the last loop finds no descriptor to close, and the LPD thread
    has made no connection that it cannot hand on any more. -/
def NothingToClose (p : Process) : Act → Prop
  | .lock => OwnPeersOnly p .lock ∧ p.lpd = .scanning
  | .close => ∀ i, p.main = .closing i → p.SocketList[i]? = some none
  | .discover _ => ¬ p.main.Locked
  | _ => True

/-! ## The Peers of the Tracker -/

/-- What the main thread connected to is in its list, and is in hand until it is
    shut down. -/
structure Supplied (p : Process) : Prop where
  handing : ∀ h k, p.main = .handing h k → some h ∈ p.SocketList
  threads : ∀ w ∈ p.all_threads, w.origin = .tracker → some w.handle ∈ p.SocketList
  shut : ∀ w ∈ p.all_threads, w.running = true → w.origin = .tracker →
    w.handle.obj ∈ p.shut ∨ some w.handle ∈ p.remaining ∧ ¬ p.Dead w.handle.fd
  exited : p.main = .locking ∨ p.main.Locked → p.listener = .exited

section runs

variable {p p' : Process} {a : Act} {l r : List PeerThread} {w : PeerThread}

theorem remaining_early (h : p.main.Early) : p.remaining = p.SocketList := by
  unfold Process.remaining
  rw [MainPhase.passed_early h, List.drop_zero]

/-- Before the last loop, to be in the list is enough. -/
theorem Supplied.of_early (hearly : p.main.Early)
    (hhanding : ∀ h k, p.main = .handing h k → some h ∈ p.SocketList)
    (hthreads : ∀ w ∈ p.all_threads, w.origin = .tracker → some w.handle ∈ p.SocketList) :
    Supplied p := by
  refine ⟨hhanding, hthreads, ?_, ?_⟩
  · intro w hw _ horigin
    right
    rw [remaining_early hearly]
    exact ⟨hthreads w hw horigin, not_dead_early hearly _⟩
  · intro hlate
    cases hm : p.main <;> rw [hm] at hearly hlate <;>
      first | exact hearly.elim | (rcases hlate with h | h <;> cases h)

/-- The main thread goes on through its last loop: nothing that is not shut
    down is passed by. -/
theorem Supplied.shut_down (h : Supplied p) (hledger : Ledger p) {i : ℕ}
    {x : Option (Handle Object)} (hmain : p.main = .shutting i)
    (hx : p.SocketList[i]? = some x) : Supplied { p.shutdown x with main := .closing i } := by
  have hrest : p.remaining = x :: p.SocketList.drop (i + 1) := by
    unfold Process.remaining
    rw [hmain]
    show p.SocketList.drop i = _
    rw [List.drop_eq_getElem?_toList_append, hx]
    rfl
  have hpassed : p.SocketList.take (i + 1) = p.passed ++ [x] := by
    unfold Process.passed
    rw [hmain, List.take_add_one, hx]
    rfl
  refine ⟨?_, h.threads, ?_, ?_⟩
  · intro g k hg
    cases hg
  · intro w hw hrunning horigin
    rcases h.shut w hw hrunning horigin with hshut | ⟨hmem, hdead⟩
    · left
      exact List.mem_append_right _ hshut
    · -- the number of the thread is right
      have hget := (hledger.accurate w.handle (mem_held_of_running hw hrunning)).resolve_right hdead
      by_cases hfd : ∃ g, x = some g ∧ g.fd = w.handle.fd
      · obtain ⟨g, rfl, hg⟩ := hfd
        left
        apply List.mem_append_left
        show w.handle.obj ∈ (p.fds g.fd).toList
        rw [hg, hget]
        exact List.mem_singleton_self _
      · right
        rw [hrest] at hmem
        refine ⟨(List.mem_cons.mp hmem).resolve_left fun heq => hfd ⟨_, heq.symm, rfl⟩, ?_⟩
        intro hdead'
        obtain ⟨g, hg, hgfd⟩ := hdead'
        have hg' : some g ∈ p.passed ++ [x] := hpassed ▸ hg
        rcases List.mem_append.mp hg' with hold | hnew
        · exact hdead ⟨g, hold, hgfd⟩
        · exact hfd ⟨g, (List.mem_singleton.mp hnew).symm, hgfd⟩
  · intro hlate
    rcases hlate with h | h <;> cases h

/-- A step that leaves the list and the place in it alone, and makes no thread
    for a peer of the tracker. -/
theorem Supplied.of_same (h : Supplied p) (hlist : p'.SocketList = p.SocketList)
    (hshut : p'.shut = p.shut)
    (hcount : p'.main.passed p.SocketList.length = p.main.passed p.SocketList.length)
    (hhanding : ∀ h k, p'.main = .handing h k → p.main = .handing h k)
    (hthreads : ∀ w ∈ p'.all_threads, w.origin = .tracker →
      ∃ v ∈ p.all_threads, v.handle = w.handle ∧ v.origin = .tracker ∧
        (w.running = true → v.running = true))
    (hexited : p'.main = .locking ∨ p'.main.Locked → p'.listener = .exited) : Supplied p' := by
  have hpassed : p'.passed = p.passed := by
    unfold Process.passed
    rw [hlist, hcount]
  have hremaining : p'.remaining = p.remaining := by
    unfold Process.remaining
    rw [hlist, hcount]
  refine ⟨?_, ?_, ?_, hexited⟩
  · intro g k hg
    rw [hlist]
    exact h.handing g k (hhanding g k hg)
  · intro w hw horigin
    obtain ⟨v, hv, hhandle, hvorigin, -⟩ := hthreads w hw horigin
    rw [hlist, ← hhandle]
    exact h.threads v hv hvorigin
  · intro w hw hrunning horigin
    obtain ⟨v, hv, hhandle, hvorigin, hvrunning⟩ := hthreads w hw horigin
    rw [hshut, hremaining, ← hhandle]
    unfold Process.Dead
    rw [hpassed]
    exact h.shut v hv (hvrunning hrunning) hvorigin

/-- The threads there were. -/
theorem old_threads (p : Process) : ∀ w ∈ p.all_threads, w.origin = .tracker →
    ∃ v ∈ p.all_threads, v.handle = w.handle ∧ v.origin = .tracker ∧
      (w.running = true → v.running = true) :=
  fun w hw horigin => ⟨w, hw, rfl, horigin, fun h => h⟩

/-- The threads there were, and one for another peer. -/
theorem started_threads {h : Handle Object} {origin : Origin} (horigin : origin ≠ .tracker) :
    ∀ w ∈ (p.started h origin).all_threads, w.origin = .tracker →
      ∃ v ∈ p.all_threads, v.handle = w.handle ∧ v.origin = .tracker ∧
        (w.running = true → v.running = true) := by
  intro w hw hw'
  rcases List.mem_append.mp hw with hold | hnew
  · exact old_threads p w hold hw'
  · rw [List.mem_singleton.mp hnew] at hw'
    exact absurd hw' horigin

/-- The threads there were, one of them at its end. -/
theorem finished_threads (hthreads : p.all_threads = l ++ w :: r) :
    ∀ v ∈ l ++ { w with running := false } :: r, v.origin = .tracker →
      ∃ u ∈ p.all_threads, u.handle = v.handle ∧ u.origin = .tracker ∧
        (v.running = true → u.running = true) := by
  intro v hv horigin
  rw [hthreads]
  rcases List.mem_append.mp hv with hl | hr
  · exact ⟨v, List.mem_append_left _ hl, rfl, horigin, fun h => h⟩
  · rcases List.mem_cons.mp hr with rfl | hr
    · exact ⟨w, List.mem_append_right _ (List.mem_cons_self ..), rfl, horigin, nofun⟩
    · exact ⟨v, List.mem_append_right _ (List.mem_cons_of_mem _ hr), rfl, horigin, fun h => h⟩

/-- While the listener runs, the main thread is not past its last loop. -/
theorem Supplied.listener_runs (h : Supplied p) (hlistener : p.listener ≠ .exited) {P : Prop} :
    p.main = .locking ∨ p.main.Locked → P :=
  fun hlate => absurd (h.exited hlate) hlistener

/-- A step of the main thread on its way through the last loop, or past it. -/
theorem Supplied.main_moved (h : Supplied p) (hlist : p'.SocketList = p.SocketList)
    (hshut : p'.shut = p.shut) (hthreads : p'.all_threads = p.all_threads)
    (hcount : p'.main.passed p.SocketList.length = p.main.passed p.SocketList.length)
    (hhanding : ∀ h k, p'.main ≠ .handing h k)
    (hexited : p'.main = .locking ∨ p'.main.Locked → p'.listener = .exited) : Supplied p' := by
  refine h.of_same hlist hshut hcount (fun g k hg => absurd hg (hhanding g k)) ?_ hexited
  rw [hthreads]
  exact old_threads p

/-- **Step lemma** for the peers of the tracker. -/
theorem Supplied.step (h : Supplied p) (hledger : Ledger p) (hstep : Step p a p') :
    Supplied p' := by
  cases hstep with
  | connected hmain hfree =>
    refine .of_early trivial ?_ ?_
    · intro g k hg
      cases hg
      exact List.mem_append_right _ (List.mem_singleton_self _)
    · intro w hw horigin
      exact List.mem_append_left _ (h.threads w hw horigin)
  | refused hmain =>
    refine .of_early trivial (fun g k hg => by cases hg) ?_
    intro w hw horigin
    exact List.mem_append_left _ (h.threads w hw horigin)
  | handed hmain =>
    refine .of_early trivial (fun g k hg => by cases hg) ?_
    intro w hw horigin
    rcases List.mem_append.mp hw with hold | hnew
    · exact h.threads w hold horigin
    · rw [List.mem_singleton.mp hnew]
      exact h.handing _ _ hmain
  | all_connected hmain => exact .of_early trivial (fun g k hg => by cases hg) h.threads
  | woken hmain => exact .of_early trivial (fun g k hg => by cases hg) h.threads
  | closed_listening hmain =>
    refine h.main_moved rfl rfl rfl (by rw [hmain]; rfl) nofun ?_
    intro hlate
    rcases hlate with h | h <;> cases h
  | shut_down hmain hx => exact h.shut_down hledger hmain hx
  | closed hmain hx =>
    refine h.main_moved rfl rfl rfl (by rw [hmain]; rfl) nofun ?_
    intro hlate
    rcases hlate with h | h <;> cases h
  | joined_listener hmain hall hexited =>
    exact h.main_moved rfl rfl rfl (by rw [hmain]; exact hall.symm) nofun fun _ => hexited
  | locked hmain =>
    exact h.main_moved rfl rfl rfl (by rw [hmain]; rfl) nofun fun _ => h.exited (.inl hmain)
  | joined hmain _ _ =>
    exact h.main_moved rfl rfl rfl (by rw [hmain]; rfl) nofun fun _ => h.exited (.inr (by rw [hmain]; trivial))
  | returned hmain _ =>
    exact h.main_moved rfl rfl rfl (by rw [hmain]; rfl) nofun fun _ => h.exited (.inr (by rw [hmain]; trivial))
  | gave_up hmain =>
    refine h.main_moved rfl rfl rfl (by rw [hmain]; rfl) nofun ?_
    intro hlate
    rcases hlate with h | h <;> cases h
  | left hmain _ =>
    refine h.main_moved rfl rfl rfl (by rw [hmain]; rfl) nofun ?_
    intro hlate
    rcases hlate with h | h <;> cases h
  | accept_called hlistener _ =>
    exact h.of_same rfl rfl rfl (fun g k hg => hg) (old_threads p)
      (h.listener_runs (by rw [hlistener]; nofun))
  | accept_refused _ _ =>
    exact h.of_same rfl rfl rfl (fun g k hg => hg) (old_threads p) fun _ => rfl
  | accepted hlistener _ =>
    exact h.of_same rfl rfl rfl (fun g k hg => hg) (old_threads p)
      (h.listener_runs (by rw [hlistener]; nofun))
  | accept_failed _ =>
    exact h.of_same rfl rfl rfl (fun g k hg => hg) (old_threads p) fun _ => rfl
  | inbound_handed hlistener _ =>
    exact h.of_same rfl rfl rfl (fun g k hg => hg) (started_threads (by decide))
      (h.listener_runs (by rw [hlistener]; nofun))
  | discovered _ _ _ => exact h.of_same rfl rfl rfl (fun g k hg => hg) (old_threads p) h.exited
  | lpd_handed _ _ =>
    exact h.of_same rfl rfl rfl (fun g k hg => hg) (started_threads (by decide)) h.exited
  | finished hthreads _ =>
    exact h.of_same rfl rfl rfl (fun g k hg => hg) (finished_threads hthreads) h.exited
  | opened_other _ => exact h.of_same rfl rfl rfl (fun g k hg => hg) (old_threads p) h.exited
  | closed_other _ => exact h.of_same rfl rfl rfl (fun g k hg => hg) (old_threads p) h.exited

theorem Started.held (h : Started p) : p.held = 0 := by
  have hmain : p.main.held = 0 := by
    rcases h.main with hm | ⟨k, hm⟩ <;> rw [hm] <;> rfl
  unfold Process.held
  rw [hmain, h.listener, h.lpd, h.all_threads]
  rfl

theorem Started.supplied (h : Started p) : Supplied p := by
  apply Supplied.of_early
  · rcases h.main with hm | ⟨k, hm⟩ <;> rw [hm] <;> trivial
  · intro g k hg
    rcases h.main with hm | ⟨j, hm⟩ <;> rw [hm] at hg <;> cases hg
  · intro w hw
    rw [h.all_threads] at hw
    cases hw

/-- The last loop has come to the end of the list. -/
theorem remaining_locking (hmain : p.main = .locking) : p.remaining = [] := by
  unfold Process.remaining
  rw [hmain]
  exact List.drop_length

/-- The threads that still run after the end of one. -/
theorem mem_of_finished {v : PeerThread} (hthreads : p.all_threads = l ++ w :: r)
    (hv : v ∈ l ++ { w with running := false } :: r) (hrunning : v.running = true) :
    v ∈ p.all_threads := by
  rw [hthreads]
  rcases List.mem_append.mp hv with hl | hr
  · exact List.mem_append_left _ hl
  · rcases List.mem_cons.mp hr with rfl | hr
    · cases hrunning
    · exact List.mem_append_right _ (List.mem_cons_of_mem _ hr)

/-- **Step lemma** for the first property. -/
theorem ShutDown.step (h : ShutDown p) (hsupplied : Supplied p) (hok : OwnPeersOnly p a)
    (hstep : Step p a p') : ShutDown p' := by
  intro hlocked w hw hrunning
  cases hstep with
  | locked hmain =>
    rcases hsupplied.shut w hw hrunning (hok w hw hrunning) with hshut | ⟨hmem, -⟩
    · exact hshut
    · rw [remaining_locking hmain] at hmem
      cases hmem
  | joined hmain _ _ => exact h (by rw [hmain]; trivial) w hw hrunning
  | returned hmain _ => exact h (by rw [hmain]; trivial) w hw hrunning
  | inbound_handed _ hfree => exact absurd hlocked hfree
  | lpd_handed _ hfree => exact absurd hlocked hfree
  | finished hthreads _ => exact h hlocked w (mem_of_finished hthreads hw hrunning) hrunning
  | accept_called _ _ => exact h hlocked w hw hrunning
  | accept_refused _ _ => exact h hlocked w hw hrunning
  | accepted _ _ => exact h hlocked w hw hrunning
  | accept_failed _ => exact h hlocked w hw hrunning
  | discovered _ _ _ => exact h hlocked w hw hrunning
  | opened_other _ => exact h hlocked w hw hrunning
  | closed_other _ => exact h hlocked w hw hrunning
  | _ => exact hlocked.elim

theorem Started.not_locked (h : Started p) : ¬ p.main.Locked := by
  rcases h.main with hm | ⟨k, hm⟩ <;> rw [hm] <;> exact fun h => h

/-- How many entries of `SocketList` have been closed, out of `n`. -/
def MainPhase.through (n : ℕ) : MainPhase → ℕ
  | .shutting i => i
  | .closing i => i
  | .locking | .joining _ | .returned => n
  | _ => 0

/-- What `close` was called for. -/
def closed_objects (cs : List Closing) : Multiset Object :=
  (cs.map fun c => c.handle.obj : List Object)

theorem closed_objects_concat (cs : List Closing) (c : Closing) :
    closed_objects (cs ++ [c]) = c.handle.obj ::ₘ closed_objects cs := by
  unfold closed_objects
  rw [List.map_append, ← Multiset.coe_add, add_comm]
  rfl

/-- Every connection is in hand under its own number or was closed under it, and
    the main thread had none. -/
structure Settled (p : Process) : Prop where
  accurate : Accurate p.fds (fun _ => False) p.held
  open_then : ∀ c ∈ p.closings, c.target = some c.handle.obj
  counted : p.held.map Handle.obj + closed_objects p.closings
    = (Multiset.range p.made).map Object.conn
  nothing : ∀ x ∈ p.SocketList.take (p.main.through p.SocketList.length), x = none
  quiet : p.main.Locked → p.lpd = .scanning ∧ ∀ w ∈ p.all_threads, w.running = false

/-- The connections so far, with the next one. -/
theorem range_succ_conn (n : ℕ) : (Multiset.range (n + 1)).map Object.conn
    = .conn n ::ₘ (Multiset.range n).map Object.conn := by
  rw [Multiset.range_succ, Multiset.map_cons]

/-- The descriptors, when the main thread closes none of them. -/
theorem Settled.effect (h : Settled p) (hledger : Ledger p) (hok : NothingToClose p a)
    (hstep : Effect p a p') :
    Accurate p'.fds (fun _ => False) p'.held ∧
      (∀ c ∈ p'.closings, c.target = some c.handle.obj) ∧
      p'.held.map Handle.obj + closed_objects p'.closings
        = (Multiset.range p'.made).map Object.conn := by
  cases hstep with
  | opened fd hfree hheld hfds hmade hclosings =>
    refine ⟨?_, ?_, ?_⟩
    · rw [hfds, hheld]
      exact h.accurate.put_cons hfree
    · rw [hclosings]
      exact h.open_then
    · rw [hheld, hclosings, hmade, range_succ_conn, ← h.counted, Multiset.map_cons,
        Multiset.cons_add]
      rfl
  | kept hheld hfds hmade hclosings =>
    rw [hheld, hfds, hmade, hclosings]
    exact ⟨h.accurate, h.open_then, h.counted⟩
  | ended g hheld hfds hmade hclosings =>
    have haccurate := h.accurate
    have hdistinct := hledger.distinct
    have hcounted := h.counted
    rw [hheld] at haccurate hdistinct hcounted
    refine ⟨?_, ?_, ?_⟩
    · rw [hfds]
      exact haccurate.close hdistinct
    · intro c hc
      rw [hclosings] at hc
      rcases List.mem_append.mp hc with hold | hnew
      · exact h.open_then c hold
      · rw [List.mem_singleton.mp hnew]
        exact (haccurate g (Multiset.mem_cons_self ..)).resolve_right fun h => h
    · rw [hclosings, hmade, ← hcounted, closed_objects_concat, Multiset.map_cons,
        Multiset.cons_add, Multiset.add_cons]
  | main_closed i x ha hmain hx hheld hfds hmade hclosings =>
    subst ha
    obtain rfl := Option.some.inj (hx.symm.trans (hok i hmain))
    rw [hheld, hfds, hmade, hclosings]
    simp only [Process.close, Option.elim_none, Option.map_none, Option.toList_none,
      List.append_nil]
    exact ⟨h.accurate, h.open_then, h.counted⟩
  | listening_closed hearly _ hheld hfds hmade hclosings =>
    rw [hheld, hfds, hmade, hclosings]
    have hnot := hledger.not_held (hledger.listening hearly) (by simp)
    exact ⟨h.accurate.close_other (.inl hnot), h.open_then, h.counted⟩
  | opened_other fd hfree hheld hfds hmade hclosings =>
    rw [hheld, hfds, hmade, hclosings]
    exact ⟨h.accurate.put hfree, h.open_then, h.counted⟩
  | closed_other fd hother hheld hfds hmade hclosings =>
    rw [hheld, hfds, hmade, hclosings]
    have hnot := hledger.not_held hother (by simp)
    exact ⟨h.accurate.close_other (.inl hnot), h.open_then, h.counted⟩

/-- The main thread has had nothing to close so far. -/
theorem Settled.nothing_step (h : Settled p) (hok : NothingToClose p a)
    (hstep : Step p a p') :
    ∀ x ∈ p'.SocketList.take (p'.main.through p'.SocketList.length), x = none := by
  have early {n : ℕ} {m : MainPhase} {xs : List (Option (Handle Object))} (hm : m.through n = 0) :
      ∀ x ∈ xs.take (m.through n), x = none := by
    intro x hx
    rw [hm, List.take_zero] at hx
    cases hx
  have same {m : MainPhase} (hm : m.through p.SocketList.length
      = p.main.through p.SocketList.length) :
      ∀ x ∈ p.SocketList.take (m.through p.SocketList.length), x = none := by
    rw [hm]
    exact h.nothing
  cases hstep with
  | connected _ _ => exact early rfl
  | refused _ => exact early rfl
  | handed _ => exact early rfl
  | all_connected _ => exact early rfl
  | woken _ => exact early rfl
  | closed_listening _ => exact early rfl
  | gave_up _ => exact early rfl
  | left _ _ => exact early rfl
  | shut_down hmain _ => exact same (by rw [hmain]; rfl)
  | @closed i x hmain hx =>
    intro y hy
    have htake : p.SocketList.take (i + 1) = p.SocketList.take i ++ [none] := by
      rw [List.take_add_one, hok i hmain]
      rfl
    have hy' : y ∈ p.SocketList.take i ++ [none] := htake ▸ hy
    rcases List.mem_append.mp hy' with hold | hnew
    · have hnothing := h.nothing
      rw [hmain] at hnothing
      exact hnothing y hold
    · exact List.mem_singleton.mp hnew
  | joined_listener hmain hall _ => exact same (by rw [hmain]; exact hall.symm)
  | locked hmain => exact same (by rw [hmain]; rfl)
  | joined hmain _ _ => exact same (by rw [hmain]; rfl)
  | returned hmain _ => exact same (by rw [hmain]; rfl)
  | _ => exact h.nothing

/-- Nobody is left to close anything while the main thread joins. -/
theorem Settled.quiet_step (h : Settled p) (hsupplied : Supplied p) (hok : NothingToClose p a)
    (hstep : Step p a p') :
    p'.main.Locked → p'.lpd = .scanning ∧ ∀ w ∈ p'.all_threads, w.running = false := by
  intro hlocked
  cases hstep with
  | locked hmain =>
    refine ⟨hok.2, ?_⟩
    intro w hw
    by_contra hrunning
    rw [Bool.not_eq_false] at hrunning
    have hmem := hsupplied.threads w hw (hok.1 w hw hrunning)
    have hnothing := h.nothing
    rw [hmain] at hnothing
    have hall : p.SocketList.take (MainPhase.locking.through p.SocketList.length)
        = p.SocketList := List.take_length
    rw [hall] at hnothing
    cases hnothing _ hmem
  | joined hmain _ _ => exact h.quiet (by rw [hmain]; trivial)
  | returned hmain _ => exact h.quiet (by rw [hmain]; trivial)
  | inbound_handed _ hfree => exact absurd hlocked hfree
  | lpd_handed _ hfree => exact absurd hlocked hfree
  | discovered _ _ _ => exact absurd hlocked hok
  | finished hthreads hrunning =>
    have hended := (h.quiet hlocked).2 _ (by
      rw [hthreads]
      exact List.mem_append_right _ (List.mem_cons_self ..))
    rw [hrunning] at hended
    cases hended
  | accept_called _ _ => exact h.quiet hlocked
  | accept_refused _ _ => exact h.quiet hlocked
  | accepted _ _ => exact h.quiet hlocked
  | accept_failed _ => exact h.quiet hlocked
  | opened_other _ => exact h.quiet hlocked
  | closed_other _ => exact h.quiet hlocked
  | _ => exact hlocked.elim

/-- **Step lemma** for the second property. -/
theorem Settled.step (h : Settled p) (hledger : Ledger p) (hsupplied : Supplied p)
    (hok : NothingToClose p a) (hstep : Step p a p') : Settled p' := by
  obtain ⟨haccurate, hopen, hcounted⟩ := h.effect hledger hok hstep.effect
  exact ⟨haccurate, hopen, hcounted, h.nothing_step hok hstep, h.quiet_step hsupplied hok hstep⟩

theorem Started.settled (h : Started p) : Settled p := by
  refine ⟨?_, ?_, ?_, ?_, fun hlocked => absurd hlocked h.not_locked⟩
  · rw [h.held]
    exact fun g hg => absurd hg (Multiset.notMem_zero g)
  · rw [h.closings]
    exact fun c hc => absurd hc List.not_mem_nil
  · rw [h.held, h.closings, h.made]
    rfl
  · rw [h.SocketList, List.take_nil]
    exact fun x hx => absurd hx List.not_mem_nil

/-- A leecher about to connect to so many peers; number 4 is free. -/
def start (peers : ℕ) : Process where
  fds := fun fd => if fd < 3 then some .other else if fd = 3 then some .listening else none
  listening_socket := 3
  made := 0
  shut := []
  main := .connecting peers
  SocketList := []
  listener := .calling
  lpd := .scanning
  all_threads := []
  closings := []

end runs

end Leecher

end BitTorrentLite
