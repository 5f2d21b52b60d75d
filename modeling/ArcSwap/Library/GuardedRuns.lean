import Mathlib.Tactic.Common

/-! Runs of a deterministic step function under a condition on the steps. A run is a list
of labels; `ok s l` says that the step `l` may be taken in state `s`.
-/

namespace GuardedRuns

variable {σ lab : Type} {next : σ → lab → Option σ} {ok : σ → lab → Prop}
  {s₀ s s' : σ}

/-- The states that runs from `s₀` reach whose steps all meet the condition. -/
inductive Reaches (next : σ → lab → Option σ) (ok : σ → lab → Prop) (s₀ : σ)
    : σ → Prop
  | start : Reaches next ok s₀ s₀
  | step {s s' l} (before : Reaches next ok s₀ s) (allowed : ok s l)
    (taken : next s l = some s')
    : Reaches next ok s₀ s'

/-- What holds at the start and is preserved by the allowed steps from reachable states
holds in every reachable state.
-/
theorem Reaches.invariant {I : σ → Prop} (init : I s₀)
    (preserved
      : ∀ s l s', Reaches next ok s₀ s → I s → ok s l → next s l = some s' → I s')
    (reached : Reaches next ok s₀ s)
    : I s := by
  induction reached with
  | start => exact init
  | step before allowed taken ih => exact preserved _ _ _ before ih allowed taken

/-- A weaker condition allows more runs. -/
theorem Reaches.mono {ok' : σ → lab → Prop} (weaker : ∀ s l, ok s l → ok' s l)
    (reached : Reaches next ok s₀ s)
    : Reaches next ok' s₀ s := by
  induction reached with
  | start => exact .start
  | step _ allowed taken ih => exact .step ih (weaker _ _ allowed) taken

/-- Runs compose. -/
theorem Reaches.trans (first : Reaches next ok s₀ s) (second : Reaches next ok s s')
    : Reaches next ok s₀ s' := by
  induction second with
  | start => exact first
  | step _ allowed taken ih => exact .step ih allowed taken

/-- Take the steps of a run, as far as a computable condition allows it. -/
def runChecked (next : σ → lab → Option σ) (check : σ → lab → Bool)
    : σ → List lab → Option σ
  | s, [] => some s
  | s, l :: ls =>
      if check s l then (next s l).bind fun s' => runChecked next check s' ls else none

/-- A run that a check has let through is an allowed run. -/
theorem reaches_of_runChecked {check : σ → lab → Bool}
    (sound : ∀ s l, check s l = true → ok s l) {ls : List lab}
    (ran : runChecked next check s ls = some s')
    : Reaches next ok s s' := by
  induction ls generalizing s with
  | nil =>
      cases ran
      exact .start
  | cons l ls ih =>
      simp only [runChecked] at ran
      split at ran
      · obtain ⟨s₁, taken, rest⟩ := Option.bind_eq_some_iff.mp ran
        exact (Reaches.step .start (sound _ _ ‹_›) taken).trans (ih rest)
      · cases ran

end GuardedRuns
