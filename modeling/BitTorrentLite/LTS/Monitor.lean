import BitTorrentLite.LTS.System

/-! # Waiting on a Condition Variable

    The threads of a system change a shared state under a lock, each step in
    one go, and some of the steps notify a condition variable. One more thread
    waits with `cv.wait(lock, pred)`: it tests the condition and either
    returns or blocks, which gives up the lock in the same step; a
    notification makes it test again, and it may also wake up without one.

    * **Lost wake-ups**: the waiter is never blocked while the condition
      holds, when every step that makes the condition true notifies.
    * **Returning**: the waiter returns only where the condition has held.
    * **Termination**: with a ranking of the system's steps, the runs without
      spurious wake-ups end, and where the condition holds at the end the
      waiter has returned.
-/

namespace LTS

universe u v

/-- A system, the condition one more thread waits for, and which steps notify
    that thread. -/
structure Monitor (State : Type u) (Label : Type v) where
  sys : System State Label
  pred : State → Bool
  notifies : State → Label → Bool

/-- Where the waiting thread is in `cv.wait`. -/
inductive Waiter where
  | testing
  | blocked
  | returned
  deriving DecidableEq

/-- A notification makes a thread that is blocked test again. -/
def Waiter.told (notified : Bool) : Waiter → Waiter
  | .testing => .testing
  | .blocked => if notified then .testing else .blocked
  | .returned => .returned

theorem Waiter.blocked_of_told {notified : Bool} {w : Waiter} (h : w.told notified = .blocked) :
    w = .blocked ∧ notified = false := by
  cases w <;> cases notified <;> simp_all [told]

theorem Waiter.returned_of_told {notified : Bool} {w : Waiter} (h : w.told notified = .returned) :
    w = .returned := by
  cases w <;> cases notified <;> simp_all [told]

/-- A test that is due. -/
def Waiter.due : Waiter → ℕ
  | .testing => 1
  | .blocked => 0
  | .returned => 0

theorem Waiter.due_told (notified : Bool) (w : Waiter) : (w.told notified).due ≤ 1 := by
  cases w <;> cases notified <;> decide

/-- The steps of the threads and those of the waiter. -/
inductive MonitorEvent (Label : Type v) where
  | thread (l : Label)
  | test
  | spurious

namespace Monitor

variable {State : Type u} {Label : Type v} {M : Monitor State Label}

/-! ## The System with the Waiter -/

/-- The state together with the waiter. -/
structure Watched (State : Type u) where
  state : State
  waiter : Waiter

/-- One step of a thread or of the waiter. -/
inductive Stepped (M : Monitor State Label) :
    Watched State → MonitorEvent Label → Watched State → Prop where
  | thread (s : State) (l : Label) (s' : State) (w : Waiter) : M.sys.step s l s' →
      Stepped M ⟨s, w⟩ (.thread l) ⟨s', w.told (M.notifies s l)⟩
  | passed (s : State) : M.pred s = true → Stepped M ⟨s, .testing⟩ .test ⟨s, .returned⟩
  | failed (s : State) : M.pred s = false → Stepped M ⟨s, .testing⟩ .test ⟨s, .blocked⟩
  | spurious (s : State) : Stepped M ⟨s, .blocked⟩ .spurious ⟨s, .testing⟩

/-- The runs of the threads and the waiter. -/
def system (M : Monitor State Label) : System (Watched State) (MonitorEvent Label) where
  init := fun x => M.sys.init x.state ∧ x.waiter = .testing
  step := Stepped M

/-- The waiter does not get in the way of the threads. -/
theorem reachable_state {x : Watched State} (h : M.system.Reachable x) :
    M.sys.Reachable x.state := by
  induction h with
  | init h0 => exact .init h0.1
  | step hr hst ih =>
    cases hst with
    | thread s l s' w hstep => exact .step ih hstep
    | passed s hpred => exact ih
    | failed s hpred => exact ih
    | spurious s => exact ih

/-- What the threads reach, they reach before the waiter has tested. -/
theorem reachable_testing {s : State} (h : M.sys.Reachable s) :
    M.system.Reachable ⟨s, .testing⟩ := by
  induction h with
  | init h0 => exact .init ⟨h0, rfl⟩
  | step hr hst ih => exact .step ih (.thread _ _ _ .testing hst)

/-! ## Lost Wake-ups -/

/-- Every step that makes the condition true notifies the waiter. -/
def Attentive (M : Monitor State Label) : Prop :=
  ∀ s l s', M.sys.Reachable s → M.sys.step s l s' → M.pred s = false → M.pred s' = true →
    M.notifies s l = true

/-- **No lost wake-up**: a blocked thread waits for something that is not so. -/
theorem Attentive.blocked (hM : M.Attentive) {x : Watched State} (h : M.system.Reachable x)
    (hb : x.waiter = .blocked) : M.pred x.state = false := by
  induction h with
  | init h0 =>
    rw [h0.2] at hb
    cases hb
  | step hr hst ih =>
    cases hst with
    | thread s l s' w hstep =>
      obtain ⟨rfl, hn⟩ := Waiter.blocked_of_told hb
      by_contra hnow
      have htold := hM s l s' (reachable_state hr) hstep (ih rfl) (by simpa using hnow)
      rw [hn] at htold
      cases htold
    | passed s hpred => cases hb
    | failed s hpred => exact hpred
    | spurious s => cases hb

/-- Where the condition holds, the waiter has returned or returns if it tests
    now. -/
theorem Attentive.returns (hM : M.Attentive) {x : Watched State} (h : M.system.Reachable x)
    (hpred : M.pred x.state = true) :
    x.waiter = .returned ∨
      (x.waiter = .testing ∧ ∀ x', M.system.step x .test x' → x' = ⟨x.state, .returned⟩) := by
  cases hw : x.waiter with
  | returned => exact .inl rfl
  | blocked =>
    have := hM.blocked h hw
    rw [hpred] at this
    cases this
  | testing =>
    refine .inr ⟨rfl, ?_⟩
    intro x' hst
    cases hst with
    | passed s hp => rfl
    | failed s hp =>
      rw [show M.pred s = true from hpred] at hp
      cases hp

/-- **Returning**: when the waiter has returned, the condition has held. -/
theorem returned {x : Watched State} (h : M.system.Reachable x) (hw : x.waiter = .returned) :
    ∃ s ls, M.sys.Reachable s ∧ M.pred s = true ∧ M.sys.Path s ls x.state := by
  induction h with
  | init h0 =>
    rw [h0.2] at hw
    cases hw
  | step hr hst ih =>
    cases hst with
    | thread s l s' w hstep =>
      obtain ⟨s₀, ls, hs₀, hpred, hpath⟩ := ih (Waiter.returned_of_told hw)
      exact ⟨s₀, ls ++ [l], hs₀, hpred, hpath.snoc hstep⟩
    | passed s hpred => exact ⟨s, [], reachable_state hr, hpred, .nil s⟩
    | failed s hpred => cases hw
    | spurious s => cases hw

/-! ## Termination -/

/-- The step is no spurious wake-up. -/
def Caused (_ : Watched State) : MonitorEvent Label → Prop
  | .spurious => False
  | _ => True

/-- A ranking of the threads' steps ranks those of the waiter too: a step of a
    thread brings one more test at most. -/
theorem ranked (m : State → ℕ)
    (hm : ∀ s l s', M.sys.Reachable s → M.sys.step s l s' → m s' < m s) {x x' : Watched State}
    {ev : MonitorEvent Label} (hr : (M.system.restrict Caused).Reachable x)
    (hst : (M.system.restrict Caused).step x ev x') :
    2 * m x'.state + x'.waiter.due < 2 * m x.state + x.waiter.due := by
  obtain ⟨hcaused, hst⟩ := hst
  cases hst with
  | thread s l s' w hstep =>
    have hlt := hm s l s' (reachable_state hr.of_restrict) hstep
    have hdue := Waiter.due_told (M.notifies s l) w
    dsimp only
    omega
  | passed s hpred => simp [Waiter.due]
  | failed s hpred => simp [Waiter.due]
  | spurious s => exact hcaused.elim

/-- Where nothing is left to do, the threads are through and the waiter has
    tested. -/
theorem stuck_iff {x : Watched State} :
    (M.system.restrict Caused).Stuck x ↔ M.sys.Stuck x.state ∧ x.waiter ≠ .testing := by
  obtain ⟨s, w⟩ := x
  constructor
  · intro hstuck
    constructor
    · intro l s' hstep
      exact hstuck (.thread l) _ ⟨trivial, .thread s l s' w hstep⟩
    · rintro rfl
      cases hpred : M.pred s with
      | false => exact hstuck .test _ ⟨trivial, .failed s hpred⟩
      | true => exact hstuck .test _ ⟨trivial, .passed s hpred⟩
  · rintro ⟨hstuck, hw⟩ ev x' ⟨hcaused, hst⟩
    cases hst with
    | thread _ l s' _ hstep => exact hstuck l s' hstep
    | passed _ hpred => exact hw rfl
    | failed _ hpred => exact hw rfl
    | spurious _ => exact hcaused

/-- **The wait ends**: where the threads are through and have left the
    condition true, the waiter has returned. -/
theorem Attentive.returned_of_stuck (hM : M.Attentive) {x : Watched State}
    (hr : (M.system.restrict Caused).Reachable x) (hstuck : (M.system.restrict Caused).Stuck x)
    (hpred : M.pred x.state = true) : x.waiter = .returned := by
  rcases hM.returns hr.of_restrict hpred with hw | ⟨hw, -⟩
  · exact hw
  · exact absurd hw (stuck_iff.mp hstuck).2

end Monitor

end LTS
