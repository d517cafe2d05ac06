import Mathlib

/-!
# Transition systems with labelled steps

The interleavings of concurrent parties, or the calls a client makes, as a
relation `step s a s'` between states, labelled by what is done.

* `StepSystem` — initial states and steps; `ofFun` builds one from a partial
  step function.
* `ReachableWhile ok` — the states of the runs whose every step meets the
  condition `ok` on the state it starts in and its label; `Reachable` is the case
  of no condition.
* `ReachableWhile.invariant` — what holds initially and is kept by every step
  that meets the condition holds in all of them.
* `ReachableWhile.simulation` — what holds of the states of one system is found in
  the runs of another, which may stand still at a step.
* `ReachableWhile.foldlM` — the state a list of labels leads to.
-/

namespace LinuxProgram.Lib

universe u v

/-- **A transition system** over the states `σ`, with steps labelled by `α`. -/
structure StepSystem (σ : Type u) (α : Type v) where
  init : σ → Prop
  step : σ → α → σ → Prop

namespace StepSystem

variable {σ : Type u} {α : Type v}

/-- One initial state, and at most one successor for each label. -/
def ofFun (start : σ) (next : α → σ → Option σ) : StepSystem σ α where
  init s := s = start
  step s a s' := next a s = some s'

/-- **The states of runs whose steps all meet `ok`.** -/
inductive ReachableWhile (T : StepSystem σ α) (ok : σ → α → Prop) : σ → Prop
  | init {s : σ} (h : T.init s) : ReachableWhile T ok s
  | step {s s' : σ} {a : α} (h : ReachableWhile T ok s) (hok : ok s a) (hstep : T.step s a s') :
      ReachableWhile T ok s'

/-- The states of all runs. -/
abbrev Reachable (T : StepSystem σ α) : σ → Prop := T.ReachableWhile fun _ _ => True

variable {T : StepSystem σ α} {ok : σ → α → Prop} {I : σ → Prop}

/-- **The invariant rule.** -/
theorem ReachableWhile.invariant (hinit : ∀ s, T.init s → I s)
    (hstep : ∀ s a s', I s → ok s a → T.step s a s' → I s') {s : σ}
    (h : T.ReachableWhile ok s) : I s := by
  induction h with
  | init h => exact hinit _ h
  | step _ hok hs ih => exact hstep _ _ _ ih hok hs

/-- **Forward simulation.**  Every state of a run is related to a state of a run of
`T'`. -/
theorem ReachableWhile.simulation {τ : Type*} {β : Type*} (T' : StepSystem τ β)
    (ok' : τ → β → Prop) (rel : σ → τ → Prop)
    (hinit : ∀ s, T.init s → ∃ t, T'.init t ∧ rel s t)
    (hstep : ∀ s a s' t, rel s t → ok s a → T.step s a s' →
      rel s' t ∨ ∃ b t', ok' t b ∧ T'.step t b t' ∧ rel s' t')
    {s : σ} (h : T.ReachableWhile ok s) : ∃ t, T'.ReachableWhile ok' t ∧ rel s t := by
  induction h with
  | init h =>
      obtain ⟨t, ht, hrel⟩ := hinit _ h
      exact ⟨t, .init ht, hrel⟩
  | step _ hok hs ih =>
      obtain ⟨t, ht, hrel⟩ := ih
      rcases hstep _ _ _ t hrel hok hs with hrel' | ⟨b, t', hok', hs', hrel'⟩
      · exact ⟨t, ht, hrel'⟩
      · exact ⟨t', ht.step hok' hs', hrel'⟩

/-- A run of a partial step function, label by label. -/
theorem ReachableWhile.foldlM {next : α → σ → Option σ} {s s' : σ} (h : T.ReachableWhile ok s)
    (as : List α) (hnext : ∀ a ∈ as, ∀ t t', next a t = some t' → ok t a ∧ T.step t a t')
    (hrun : as.foldlM (fun t a => next a t) s = some s') : T.ReachableWhile ok s' := by
  induction as generalizing s with
  | nil =>
      cases hrun
      exact h
  | cons a as ih =>
      obtain ⟨t, hstep, hrest⟩ := Option.bind_eq_some_iff.mp hrun
      obtain ⟨hok, hs⟩ := hnext a (.head _) s t hstep
      exact ih (h.step hok hs) (fun b hb => hnext b (.tail _ hb)) hrest

/-- A run of the system of a partial step function. -/
theorem reachable_foldlM {start : σ} {next : α → σ → Option σ} {s s' : σ}
    (h : (ofFun start next).Reachable s) (as : List α)
    (hrun : as.foldlM (fun t a => next a t) s = some s') : (ofFun start next).Reachable s' :=
  h.foldlM as (fun _ _ _ _ hstep => ⟨trivial, hstep⟩) hrun

end StepSystem

end LinuxProgram.Lib
