import BitTorrentLite.Leecher.Threads

/-! # Who Holds a Connection

    Until it is closed, a connection is with exactly one thread: the one that
    made it, or the peer thread it was handed to. The numbers they hold are
    right, but for those that the main thread is through with in its last loop.
-/

open LTS Descriptors

namespace BitTorrentLite

namespace Leecher

/-! ## Handles in the Hands of Threads -/

def MainPhase.held : MainPhase → Multiset (Handle Object)
  | .handing h _ => {h}
  | _ => 0

def ListenerPhase.held : ListenerPhase → Multiset (Handle Object)
  | .accepted h => {h}
  | _ => 0

def LpdPhase.held : LpdPhase → Multiset (Handle Object)
  | .connected h => {h}
  | _ => 0

/-- The connections of the threads that run. -/
def running_handles (ws : List PeerThread) : Multiset (Handle Object) :=
  ((ws.filter PeerThread.running).map PeerThread.handle : List (Handle Object))

/-- The connections that a thread is still going to close or to hand on. -/
def Process.held (p : Process) : Multiset (Handle Object) :=
  p.main.held + p.listener.held + p.lpd.held + running_handles p.all_threads

/-- Before the main thread closes the listening socket. -/
def MainPhase.Early : MainPhase → Prop
  | .no_peers | .connecting _ | .handing _ _ | .waiting | .done => True
  | _ => False

/-- How many entries of `SocketList` have been shut down, out of `n`. -/
def MainPhase.passed (n : ℕ) : MainPhase → ℕ
  | .shutting i => i
  | .closing i => i + 1
  | .locking | .joining _ | .returned => n
  | _ => 0

/-- The entries that have been shut down, and those that have not. -/
def Process.passed (p : Process) : List (Option (Handle Object)) :=
  p.SocketList.take (p.main.passed p.SocketList.length)

def Process.remaining (p : Process) : List (Option (Handle Object)) :=
  p.SocketList.drop (p.main.passed p.SocketList.length)

/-- The number is one that the main thread has closed, or is about to. -/
def Process.Dead (p : Process) (fd : ℕ) : Prop := ∃ h, some h ∈ p.passed ∧ h.fd = fd

section threads

variable {p p' : Process} {a : Act} {l r : List PeerThread} {w : PeerThread}
  {h : Handle Object} {origin : Origin}

theorem running_handles_started (ws : List PeerThread) (h : Handle Object) (origin : Origin) :
    running_handles (ws ++ [⟨h, origin, true⟩]) = running_handles ws + {h} := by
  simp [running_handles, List.filter_append, ← Multiset.coe_add]

theorem running_handles_finished (hw : w.running = true) :
    running_handles (l ++ w :: r) = w.handle ::ₘ
      running_handles (l ++ { w with running := false } :: r) := by
  unfold running_handles
  rw [List.filter_append, List.filter_append, List.filter_cons_of_pos hw,
    List.filter_cons_of_neg (by simp), List.map_append, List.map_append, List.map_cons,
    Multiset.cons_coe]
  exact Multiset.coe_eq_coe.mpr List.perm_middle

theorem mem_held_of_running (hw : w ∈ p.all_threads) (hrunning : w.running = true) :
    w.handle ∈ p.held := by
  unfold Process.held running_handles
  apply Multiset.mem_add.mpr
  right
  exact List.mem_map_of_mem (List.mem_filter.mpr ⟨hw, hrunning⟩)

/-! ## What a Step Does -/

/-- What a step does to the descriptors and to those who hold them. -/
inductive Effect (p : Process) (a : Act) (p' : Process) : Prop
  | opened (fd : ℕ) : p.fds fd = none → p'.held = p.next fd ::ₘ p.held →
      p'.fds = p.fds.put fd (.conn p.made) → p'.made = p.made + 1 →
      p'.closings = p.closings → Effect p a p'
  | kept : p'.held = p.held → p'.fds = p.fds → p'.made = p.made → p'.closings = p.closings →
      Effect p a p'
  | ended (h : Handle Object) : p.held = h ::ₘ p'.held → p'.fds = p.fds.close h.fd →
      p'.made = p.made → p'.closings = p.closings ++ [⟨h, p.fds h.fd⟩] → Effect p a p'
  | main_closed (i : ℕ) (x : Option (Handle Object)) : a = .close → p.main = .closing i →
      p.SocketList[i]? = some x → p'.held = p.held → p'.fds = (p.close x).fds →
      p'.made = p.made → p'.closings = (p.close x).closings → Effect p a p'
  | listening_closed : p.main.Early → ¬ p'.main.Early → p'.held = p.held →
      p'.fds = p.fds.close p.listening_socket → p'.made = p.made →
      p'.closings = p.closings → Effect p a p'
  | opened_other (fd : ℕ) : p.fds fd = none → p'.held = p.held →
      p'.fds = p.fds.put fd .other → p'.made = p.made → p'.closings = p.closings → Effect p a p'
  | closed_other (fd : ℕ) : p.fds fd = some .other → p'.held = p.held →
      p'.fds = p.fds.close fd → p'.made = p.made → p'.closings = p.closings → Effect p a p'

theorem Step.effect (h : Step p a p') : Effect p a p' := by
  cases h with
  | connected hmain hfree =>
    refine .opened _ hfree ?_ rfl rfl rfl
    simp [Process.held, Process.opened, MainPhase.held, hmain]
  | refused hmain =>
    refine .kept ?_ rfl rfl rfl
    simp [Process.held, MainPhase.held, hmain]
  | handed hmain =>
    refine .kept ?_ rfl rfl rfl
    simp only [Process.held, Process.started, MainPhase.held, hmain, running_handles_started]
    abel
  | all_connected hmain =>
    refine .kept ?_ rfl rfl rfl
    simp [Process.held, MainPhase.held, hmain]
  | woken hmain =>
    refine .kept ?_ rfl rfl rfl
    simp [Process.held, MainPhase.held, hmain]
  | closed_listening hmain =>
    refine .listening_closed (by rw [hmain]; trivial) (fun h => h) ?_ rfl rfl rfl
    simp [Process.held, MainPhase.held, hmain]
  | shut_down hmain hx =>
    refine .kept ?_ rfl rfl rfl
    simp [Process.held, Process.shutdown, MainPhase.held, hmain]
  | closed hmain hx =>
    refine .main_closed _ _ rfl hmain hx ?_ rfl rfl rfl
    simp [Process.held, Process.close, MainPhase.held, hmain]
  | joined_listener hmain hall hexited =>
    refine .kept ?_ rfl rfl rfl
    simp [Process.held, MainPhase.held, hmain]
  | locked hmain =>
    refine .kept ?_ rfl rfl rfl
    simp [Process.held, MainPhase.held, hmain]
  | joined hmain hw hended =>
    refine .kept ?_ rfl rfl rfl
    simp [Process.held, MainPhase.held, hmain]
  | returned hmain hall =>
    refine .kept ?_ rfl rfl rfl
    simp [Process.held, MainPhase.held, hmain]
  | gave_up hmain =>
    refine .listening_closed (by rw [hmain]; trivial) (fun h => h) ?_ rfl rfl rfl
    simp [Process.held, MainPhase.held, hmain]
  | left hmain hexited =>
    refine .kept ?_ rfl rfl rfl
    simp [Process.held, MainPhase.held, hmain]
  | accept_called hlistener hopen =>
    refine .kept ?_ rfl rfl rfl
    simp [Process.held, ListenerPhase.held, hlistener]
  | accept_refused hlistener hclosed =>
    refine .kept ?_ rfl rfl rfl
    simp [Process.held, ListenerPhase.held, hlistener]
  | accepted hlistener hfree =>
    refine .opened _ hfree ?_ rfl rfl rfl
    simp only [Process.held, Process.opened, ListenerPhase.held, hlistener,
      ← Multiset.singleton_add]
    abel
  | accept_failed hlistener =>
    refine .kept ?_ rfl rfl rfl
    simp [Process.held, ListenerPhase.held, hlistener]
  | inbound_handed hlistener hfree =>
    refine .kept ?_ rfl rfl rfl
    simp only [Process.held, Process.started, ListenerPhase.held, hlistener,
      running_handles_started]
    abel
  | discovered hlpd hmain hfree =>
    refine .opened _ hfree ?_ rfl rfl rfl
    simp only [Process.held, Process.opened, LpdPhase.held, hlpd, ← Multiset.singleton_add]
    abel
  | lpd_handed hlpd hfree =>
    refine .kept ?_ rfl rfl rfl
    simp only [Process.held, Process.started, LpdPhase.held, hlpd, running_handles_started]
    abel
  | finished hthreads hrunning =>
    refine .ended _ ?_ rfl rfl rfl
    unfold Process.held
    rw [hthreads, running_handles_finished hrunning]
    simp [Process.close]
  | opened_other hfree => exact .opened_other _ hfree rfl rfl rfl rfl
  | closed_other hother => exact .closed_other _ hother rfl rfl rfl rfl

/-! ## What Only Grows -/

theorem MainPhase.passed_early {m : MainPhase} (h : m.Early) (n : ℕ) : m.passed n = 0 := by
  cases m with
  | no_peers => rfl
  | connecting _ => rfl
  | handing _ _ => rfl
  | waiting => rfl
  | done => rfl
  | _ => exact h.elim

theorem passed_early (h : p.main.Early) : p.passed = [] := by
  unfold Process.passed
  rw [MainPhase.passed_early h, List.take_zero]

theorem not_dead_early (h : p.main.Early) (fd : ℕ) : ¬ p.Dead fd := by
  intro hdead
  obtain ⟨g, hg, -⟩ := hdead
  rw [passed_early h] at hg
  cases hg

/-- The loop over `SocketList` only goes on. -/
theorem Step.passed (h : Step p a p') : p.passed ⊆ p'.passed := by
  have early {q q' : Process} (hq : q.main.Early) : q.passed ⊆ q'.passed := by
    rw [passed_early hq]
    exact List.nil_subset _
  have same {q q' : Process} (hlist : q'.SocketList = q.SocketList)
      (hcount : q.main.passed q.SocketList.length = q'.main.passed q.SocketList.length) :
      q.passed ⊆ q'.passed := by
    unfold Process.passed
    rw [hlist, hcount]
    exact List.Subset.refl _
  cases h with
  | connected hmain _ => exact early (by rw [hmain]; trivial)
  | refused hmain => exact early (by rw [hmain]; trivial)
  | handed hmain => exact early (by rw [hmain]; trivial)
  | all_connected hmain => exact early (by rw [hmain]; trivial)
  | woken hmain => exact early (by rw [hmain]; trivial)
  | closed_listening hmain => exact early (by rw [hmain]; trivial)
  | gave_up hmain => exact early (by rw [hmain]; trivial)
  | shut_down hmain _ =>
    unfold Process.passed
    rw [hmain]
    exact List.take_subset_take_left _ (Nat.le_succ _)
  | joined_listener hmain hall _ => exact same rfl (by rw [hmain]; exact hall)
  | closed hmain _ => exact same rfl (by rw [hmain]; rfl)
  | locked hmain => exact same rfl (by rw [hmain]; rfl)
  | joined hmain _ _ => exact same rfl (by rw [hmain]; rfl)
  | returned hmain _ => exact same rfl (by rw [hmain]; rfl)
  | left hmain _ => exact same rfl (by rw [hmain]; rfl)
  | _ => exact same rfl rfl

theorem Step.dead (h : Step p a p') (fd : ℕ) (hdead : p.Dead fd) : p'.Dead fd := by
  obtain ⟨g, hg, hfd⟩ := hdead
  exact ⟨g, h.passed hg, hfd⟩

/-- The main thread does not go back. -/
theorem Step.early (h : Step p a p') (hearly : p'.main.Early) : p.main.Early := by
  cases h with
  | connected hmain _ => rw [hmain]; trivial
  | refused hmain => rw [hmain]; trivial
  | handed hmain => rw [hmain]; trivial
  | all_connected hmain => rw [hmain]; trivial
  | woken hmain => rw [hmain]; trivial
  | _ => first | exact hearly | exact hearly.elim

theorem Step.listening_socket (h : Step p a p') : p'.listening_socket = p.listening_socket := by
  cases h <;> rfl

/-! ## The Ledger -/

/-- Each connection is with one thread, and its number is right. -/
structure Ledger (p : Process) : Prop where
  distinct : (p.held.map Handle.obj).Nodup
  made : ∀ h ∈ p.held, ∃ k < p.made, h.obj = .conn k
  accurate : Accurate p.fds p.Dead p.held
  listening : p.main.Early → p.fds p.listening_socket = some .listening

/-- The next connection is a new one. -/
theorem Ledger.next_new (h : Ledger p) (fd : ℕ) :
    ((p.next fd ::ₘ p.held).map Handle.obj).Nodup := by
  rw [Multiset.map_cons, Multiset.nodup_cons]
  refine ⟨?_, h.distinct⟩
  intro hmem
  obtain ⟨g, hg, hobj⟩ := Multiset.mem_map.mp hmem
  obtain ⟨k, hk, heq⟩ := h.made g hg
  have hnext : Object.conn k = .conn p.made := heq.symm.trans hobj
  rw [Object.conn.injEq] at hnext
  omega

/-- What is not a connection is held by nobody. -/
theorem Ledger.not_held (h : Ledger p) {fd : ℕ} {obj : Object} (hget : p.fds fd = some obj)
    (hobj : ∀ k, obj ≠ .conn k) : ∀ g ∈ p.held, p.fds fd ≠ some g.obj := by
  intro g hg hheld
  obtain ⟨k, -, heq⟩ := h.made g hg
  exact hobj k (Option.some.inj (hget.symm.trans (heq ▸ hheld)))

/-- What the main thread is about to close may be closed. -/
theorem dead_closing {i : ℕ} (hmain : p.main = .closing i)
    (hx : p.SocketList[i]? = some (some h)) : p.Dead h.fd := by
  refine ⟨h, ?_, rfl⟩
  have hpassed : p.passed = p.SocketList.take (i + 1) := by
    unfold Process.passed
    rw [hmain]
    rfl
  rw [hpassed]
  apply List.mem_of_getElem? (i := i)
  rw [List.getElem?_take_of_lt (Nat.lt_succ_self i), hx]

/-- Nothing is opened in the place of the listening socket. -/
theorem Ledger.listening_put (h : Ledger p) (hearly : p.main.Early) {fd : ℕ}
    (hfree : p.fds fd = none) (obj : Object) :
    p.fds.put fd obj p.listening_socket = some .listening := by
  have hlistening := h.listening hearly
  have hne : p.listening_socket ≠ fd := by
    intro heq
    rw [heq, hfree] at hlistening
    cases hlistening
  rw [Table.put_ne hne, hlistening]

/-- The listening socket stays where another number is closed. -/
theorem Ledger.listening_close (h : Ledger p) (hearly : p.main.Early) {fd : ℕ} {obj : Object}
    (hget : p.fds fd = some obj) (hobj : obj ≠ .listening) :
    p.fds.close fd p.listening_socket = some .listening := by
  have hlistening := h.listening hearly
  have hne : p.listening_socket ≠ fd := by
    intro heq
    rw [heq, hget] at hlistening
    exact hobj (Option.some.inj hlistening)
  rw [Table.close_ne hne, hlistening]

/-- A step after which the same connections are held by the same threads. -/
theorem Ledger.of_same (h : Ledger p) (hheld : p'.held = p.held) (hmade : p'.made = p.made)
    (haccurate : Accurate p'.fds p'.Dead p.held)
    (hlistening : p'.main.Early → p'.fds p'.listening_socket = some .listening) : Ledger p' := by
  refine ⟨?_, ?_, ?_, hlistening⟩
  · rw [hheld]
    exact h.distinct
  · rw [hheld, hmade]
    exact h.made
  · rw [hheld]
    exact haccurate

/-- **Step lemma** of the ledger. -/
theorem Ledger.step (h : Ledger p) (hstep : Step p a p') : Ledger p' := by
  have hsocket := hstep.listening_socket
  have hearly := hstep.early
  have hmono := hstep.dead
  cases hstep.effect with
  | opened fd hfree hheld hfds hmade _ =>
    refine ⟨?_, ?_, ?_, ?_⟩
    · rw [hheld]
      exact h.next_new fd
    · intro g hg
      rw [hheld] at hg
      rw [hmade]
      rcases Multiset.mem_cons.mp hg with rfl | hold
      · exact ⟨p.made, Nat.lt_succ_self _, rfl⟩
      · obtain ⟨k, hk, hobj⟩ := h.made g hold
        exact ⟨k, Nat.lt_succ_of_lt hk, hobj⟩
    · rw [hfds, hheld]
      exact (h.accurate.put_cons hfree).mono (fun _ hx => hx) hmono
    · intro hp'
      rw [hfds, hsocket]
      exact h.listening_put (hearly hp') hfree _
  | kept hheld hfds hmade _ =>
    refine h.of_same hheld hmade ?_ ?_
    · rw [hfds]
      exact h.accurate.mono (fun _ hx => hx) hmono
    · intro hp'
      rw [hfds, hsocket]
      exact h.listening (hearly hp')
  | ended g hheld hfds hmade _ =>
    have hdistinct := h.distinct
    have haccurate := h.accurate
    have hmem : g ∈ p.held := hheld ▸ Multiset.mem_cons_self g p'.held
    rw [hheld] at hdistinct haccurate
    refine ⟨?_, ?_, ?_, ?_⟩
    · rw [Multiset.map_cons, Multiset.nodup_cons] at hdistinct
      exact hdistinct.2
    · intro f hf
      rw [hmade]
      exact h.made f (hheld ▸ Multiset.mem_cons_of_mem hf)
    · rw [hfds]
      exact (haccurate.close hdistinct).mono (fun _ hx => hx) hmono
    -- before the last loop the number that is closed is the thread's own
    · intro hp'
      have hget := (h.accurate g hmem).resolve_right (not_dead_early (hearly hp') _)
      obtain ⟨k, -, hobj⟩ := h.made g hmem
      rw [hfds, hsocket]
      exact h.listening_close (hearly hp') hget (by rw [hobj]; nofun)
  | main_closed i x _ hmain hx hheld hfds hmade _ =>
    refine h.of_same hheld hmade ?_ ?_
    · rw [hfds]
      cases x with
      | none => exact h.accurate.mono (fun _ hx => hx) hmono
      | some g =>
        have hdead := dead_closing hmain hx
        exact (h.accurate.close_other (.inr hdead)).mono (fun _ hx => hx) hmono
    · intro hp'
      have hp := hearly hp'
      rw [hmain] at hp
      exact hp.elim
  | listening_closed hp hp' hheld hfds hmade _ =>
    refine h.of_same hheld hmade ?_ (fun hearly' => absurd hearly' hp')
    rw [hfds]
    have hnot := h.not_held (h.listening hp) (by simp)
    exact (h.accurate.close_other (.inl hnot)).mono (fun _ hx => hx) hmono
  | opened_other fd hfree hheld hfds hmade _ =>
    refine h.of_same hheld hmade ?_ ?_
    · rw [hfds]
      exact (h.accurate.put hfree).mono (fun _ hx => hx) hmono
    · intro hp'
      rw [hfds, hsocket]
      exact h.listening_put (hearly hp') hfree _
  | closed_other fd hother hheld hfds hmade _ =>
    refine h.of_same hheld hmade ?_ ?_
    · rw [hfds]
      have hnot := h.not_held hother (by simp)
      exact (h.accurate.close_other (.inl hnot)).mono (fun _ hx => hx) hmono
    · intro hp'
      rw [hfds, hsocket]
      exact h.listening_close (hearly hp') hother (by simp)

end threads

end Leecher

end BitTorrentLite
