import Mathlib.Tactic

/-! # Labelled Transition Systems

    Systems as an initial condition and a labelled step relation, the states
    they reach, and the rules the safety arguments of this development use:

    * **Invariants**: a predicate that holds initially and is kept by every
      step from a reachable state holds of every reachable state.
    * **Guarded runs**: `System.restrict` keeps the steps that meet a
      condition on the state before the step and on its label, so that a
      property of the runs whose steps all meet the condition is a property
      of the restricted system.
    * **Paths**: labelled finite runs between two states, for properties that
      relate an earlier state with a later one.
    * **Progress**: a goal is reached where a measure can always be made
      smaller until it is.
-/

namespace LTS

universe u v

variable {State : Type u} {Label : Type v}

/-! ## Systems and Reachability -/

/-- A labelled transition system: which states are initial, and which steps
    a label allows. -/
structure System (State : Type u) (Label : Type v) where
  init : State → Prop
  step : State → Label → State → Prop

namespace System

/-- The states some finite run of the system leads to. -/
inductive Reachable (sys : System State Label) : State → Prop where
  | init : ∀ {s}, sys.init s → Reachable sys s
  | step : ∀ {s l s'}, Reachable sys s → sys.step s l s' → Reachable sys s'

/-- **Invariant rule**: a predicate that holds initially and is kept by every
    step from a reachable state holds in every reachable state. -/
theorem invariant {sys : System State Label} {I : State → Prop}
    (hinit : ∀ s, sys.init s → I s)
    (hstep : ∀ s l s', sys.Reachable s → I s → sys.step s l s' → I s') :
    ∀ s, sys.Reachable s → I s := by
  intro s hs
  induction hs with
  | init h0 => exact hinit _ h0
  | step hr hst ih => exact hstep _ _ _ hr ih hst

/-! ## Guarded Runs -/

/-- The system whose steps are the steps of `sys` that meet `ok`. -/
def restrict (sys : System State Label) (ok : State → Label → Prop) :
    System State Label where
  init := sys.init
  step := fun s l s' => ok s l ∧ sys.step s l s'

/-- Dropping the guard loses no run: what a guarded run reaches, a run does. -/
theorem Reachable.of_restrict {sys : System State Label} {ok : State → Label → Prop}
    {s : State} (h : (sys.restrict ok).Reachable s) : sys.Reachable s := by
  induction h with
  | init h0 => exact .init h0
  | step _ hst ih => exact .step ih hst.2

/-- A run that meets a guard meets a weaker one, which may use that its states
    are reachable. -/
theorem Reachable.restrict_mono {sys : System State Label} {ok ok' : State → Label → Prop}
    (hok : ∀ s l, sys.Reachable s → ok s l → ok' s l) {s : State}
    (h : (sys.restrict ok).Reachable s) : (sys.restrict ok').Reachable s := by
  induction h with
  | init h0 => exact .init h0
  | step hr hst ih => exact .step ih ⟨hok _ _ hr.of_restrict hst.1, hst.2⟩

/-! ## Paths -/

/-- `sys.Path s ls s'`: the labels `ls`, taken in turn, lead from `s` to `s'`. -/
inductive Path (sys : System State Label) : State → List Label → State → Prop where
  | nil : ∀ s, Path sys s [] s
  | cons : ∀ {s s' s'' l ls}, sys.step s l s' → Path sys s' ls s'' → Path sys s (l :: ls) s''

/-- One step more at the end of a path. -/
theorem Path.snoc {sys : System State Label} {s s' s'' : State} {l : Label} {ls : List Label}
    (h : sys.Path s ls s') (hst : sys.step s' l s'') : sys.Path s (ls ++ [l]) s'' := by
  induction h with
  | nil => exact .cons hst (.nil _)
  | cons hst' _ ih => exact .cons hst' (ih hst)

/-- A path from a reachable state ends in a reachable state. -/
theorem Path.reachable {sys : System State Label} {s s' : State} {ls : List Label}
    (h : sys.Path s ls s') (hs : sys.Reachable s) : sys.Reachable s' := by
  induction h with
  | nil => exact hs
  | cons hst _ ih => exact ih (.step hs hst)

theorem Path.of_restrict {sys : System State Label} {ok : State → Label → Prop}
    {s s' : State} {ls : List Label} (h : (sys.restrict ok).Path s ls s') : sys.Path s ls s' := by
  induction h with
  | nil s => exact .nil s
  | cons hst _ ih => exact .cons hst.2 ih

/-- **Stability rule**: what every step of the system keeps, a path keeps. -/
theorem Path.stable {sys : System State Label} {P : State → Prop}
    (hstep : ∀ s l s', P s → sys.step s l s' → P s')
    {s s' : State} {ls : List Label} (h : sys.Path s ls s') (hs : P s) : P s' := by
  induction h with
  | nil => exact hs
  | cons hst _ ih => exact ih (hstep _ _ _ hs hst)

/-! ## Executable Runs -/

/-- The state a list of labels leads to, by a function that takes one step. -/
def run (exec : State → Label → Option State) : State → List Label → Option State
  | s, [] => some s
  | s, l :: ls => (exec s l).bind fun s' => run exec s' ls

/-- What the function computes is a path, when its steps are steps. -/
theorem Path.of_run {sys : System State Label} {exec : State → Label → Option State}
    (hexec : ∀ s l s', exec s l = some s' → sys.step s l s') {ls : List Label} :
    ∀ {s s' : State}, run exec s ls = some s' → sys.Path s ls s' := by
  induction ls with
  | nil =>
    intro s s' h
    obtain rfl := Option.some.inj h
    exact .nil s
  | cons l ls ih =>
    intro s s' h
    obtain ⟨t, ht, hrest⟩ := Option.bind_eq_some_iff.mp h
    exact .cons (hexec s l t ht) (ih hrest)

/-- A run that computes to a state with the property `P` reaches such a state. -/
theorem Reachable.exists_of_run {sys : System State Label} {exec : State → Label → Option State}
    (hexec : ∀ s l s', exec s l = some s' → sys.step s l s') {s : State} (hs : sys.Reachable s)
    (ls : List Label) {P : State → Bool} (h : (run exec s ls).any P = true) :
    ∃ s', sys.Reachable s' ∧ P s' = true := by
  obtain ⟨s', hs', hP⟩ := (Option.any_eq_true _ _).mp h
  exact ⟨s', (Path.of_run hexec hs').reachable hs, hP⟩

/-- The steps a function takes, where they meet a computed guard. -/
def guarded (g : State → Label → Bool) (exec : State → Label → Option State) (s : State)
    (l : Label) : Option State :=
  if g s l then exec s l else none

theorem guarded_step {sys : System State Label} {exec : State → Label → Option State}
    {g : State → Label → Bool} {ok : State → Label → Prop} (hg : ∀ s l, g s l = true → ok s l)
    (hexec : ∀ s l s', exec s l = some s' → sys.step s l s') :
    ∀ s l s', guarded g exec s l = some s' → (sys.restrict ok).step s l s' := by
  intro s l s' h
  unfold guarded at h
  split at h
  · rename_i hgl
    exact ⟨hg s l hgl, hexec s l s' h⟩
  · cases h

/-- A guarded run that computes to a state with the property `P`, when the
    computed guard is only right for reachable states. -/
theorem Reachable.exists_of_guarded_run {sys : System State Label}
    {exec : State → Label → Option State} {g : State → Label → Bool} {ok : State → Label → Prop}
    (hg : ∀ s l, sys.Reachable s → g s l = true → ok s l)
    (hexec : ∀ s l s', exec s l = some s' → sys.step s l s') {P : State → Bool} {ls : List Label} :
    ∀ {s : State}, (sys.restrict ok).Reachable s → (run (guarded g exec) s ls).any P = true →
      ∃ s', (sys.restrict ok).Reachable s' ∧ P s' = true := by
  induction ls with
  | nil =>
    intro s hs h
    exact ⟨s, hs, h⟩
  | cons l ls ih =>
    intro s hs h
    obtain ⟨s', hs', hP⟩ := (Option.any_eq_true _ _).mp h
    obtain ⟨t, ht, hrest⟩ := Option.bind_eq_some_iff.mp hs'
    unfold guarded at ht
    split at ht
    · rename_i hgl
      have hstep := hexec s l t ht
      exact ih (.step hs ⟨hg s l hs.of_restrict hgl, hstep⟩)
        ((Option.any_eq_true _ _).mpr ⟨s', hrest, hP⟩)
    · cases ht

/-! ## Termination -/

/-- No step leads on from the state. -/
def Stuck (sys : System State Label) (s : State) : Prop := ∀ l s', ¬ sys.step s l s'

/-- **Counting rule**: where no step raises the measure and each of the steps
    that are counted lowers it, a path has no more of them than the measure
    falls. It is enough to know so in paths to a state with the property `P`,
    which its predecessors have too. -/
theorem Path.count_le {sys : System State Label} (m : State → ℕ) (counted : Label → Bool)
    {P : State → Prop} (hback : ∀ s l s', sys.step s l s' → P s' → P s)
    (hm : ∀ s l s', sys.Reachable s → sys.step s l s' → P s' →
      m s' + (if counted l then 1 else 0) ≤ m s)
    {s s' : State} {ls : List Label} (h : sys.Path s ls s') (hs : sys.Reachable s) (hP : P s') :
    P s ∧ ls.countP counted + m s' ≤ m s := by
  induction h with
  | nil s => exact ⟨hP, by simp⟩
  | cons hst _ ih =>
    obtain ⟨hnext, hrest⟩ := ih (.step hs hst) hP
    have hle := hm _ _ _ hs hst hnext
    refine ⟨hback _ _ _ hst hnext, ?_⟩
    rw [List.countP_cons]
    omega

/-- **Ranking rule**: where every step lowers the measure, a path is no longer
    than the measure falls. -/
theorem Path.length_le {sys : System State Label} (m : State → ℕ)
    (hm : ∀ s l s', sys.Reachable s → sys.step s l s' → m s' < m s) {s s' : State}
    {ls : List Label} (h : sys.Path s ls s') (hs : sys.Reachable s) : ls.length + m s' ≤ m s := by
  have hcount := (h.count_le m (fun _ => true) (P := fun _ => True) (fun _ _ _ _ _ => trivial)
    (fun s l s' hs hst _ => hm s l s' hs hst) hs trivial).2
  rwa [List.countP_true] at hcount

/-- **Goal rule**: a path of steps with the property `G` leads to the goal `Q`,
    when wherever it is not reached there is such a step that lowers the
    measure. -/
theorem exists_goal {sys : System State Label} (m : State → ℕ) {P Q : State → Prop}
    {G : Label → Prop} (hm : ∀ s, sys.Reachable s → P s → Q s ∨
      ∃ l s', sys.step s l s' ∧ G l ∧ P s' ∧ m s' < m s) {s : State} (hs : sys.Reachable s)
    (hP : P s) : ∃ ls s', sys.Path s ls s' ∧ (∀ l ∈ ls, G l) ∧ P s' ∧ Q s' := by
  induction hk : m s using Nat.strong_induction_on generalizing s with
  | _ k ih =>
    rcases hm s hs hP with hQ | ⟨l, t, hst, hl, ht, hlt⟩
    · exact ⟨[], s, .nil s, by simp, hP, hQ⟩
    · obtain ⟨ls, s', hp, hls, hend⟩ := ih _ (hk ▸ hlt) (.step hs hst) ht rfl
      refine ⟨l :: ls, s', .cons hst hp, ?_, hend⟩
      intro l' hl'
      rcases List.mem_cons.mp hl' with rfl | hl'
      · exact hl
      · exact hls l' hl'

/-- And every path can be taken on to a state where the system is stuck. -/
theorem exists_stuck {sys : System State Label} (m : State → ℕ)
    (hm : ∀ s l s', sys.Reachable s → sys.step s l s' → m s' < m s) {s : State}
    (hs : sys.Reachable s) : ∃ ls s', sys.Path s ls s' ∧ sys.Stuck s' := by
  obtain ⟨ls, s', hp, -, -, hstuck⟩ := exists_goal m (P := fun _ => True) (Q := sys.Stuck)
    (G := fun _ => True) (fun s hs _ => by
      by_cases hstuck : sys.Stuck s
      · exact .inl hstuck
      · unfold Stuck at hstuck
        push Not at hstuck
        obtain ⟨l, t, hst⟩ := hstuck
        exact .inr ⟨l, t, hst, trivial, trivial, hm _ _ _ hs hst⟩) hs trivial
  exact ⟨ls, s', hp, hstuck⟩

end System

/-! ### Progress -/

/-- From any state with the property `P` some steps lead to the goal `Q`, when
    wherever it is not reached a step makes the measure smaller and keeps `P`. -/
theorem exists_goal_of_measure {r : State → State → Prop} {P Q : State → Prop} (m : State → ℕ)
    (h : ∀ s, P s → Q s ∨ ∃ s', r s s' ∧ P s' ∧ m s' < m s) {s : State} (hs : P s) :
    ∃ s', Relation.ReflTransGen r s s' ∧ P s' ∧ Q s' := by
  induction hm : m s using Nat.strong_induction_on generalizing s with
  | _ k ih =>
    rcases h s hs with hq | ⟨s', hstep, hp, hlt⟩
    · exact ⟨s, .refl, hs, hq⟩
    · obtain ⟨t, hrun, ht, hq⟩ := ih _ (hm ▸ hlt) hp rfl
      exact ⟨t, .head hstep hrun, ht, hq⟩

end LTS
