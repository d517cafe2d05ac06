import Mathlib

/-!
# Sequences of calls

A client makes calls, one after the other, each of which changes the state and always
ends.

* `states` — the states before, between and behind the calls; `calls` — the calls, each
  with the state it is made in.
* `forall_states_iff` — if a call that is made in a good state leads to a good state
  exactly if it fits that state, all states of a sequence are good exactly if all its
  calls fit.
-/

namespace LinuxProgram.Lib.CallSequence

universe u v

variable {σ : Type u} {ι : Type v} (step : σ → ι → σ)

/-- **The states** of a sequence of calls. -/
def states : List ι → σ → List σ
  | [], s => [s]
  | a :: as, s => s :: states as (step s a)

/-- **The calls**, with the states they are made in. -/
def calls : List ι → σ → List (σ × ι)
  | [], _ => []
  | a :: as, s => (s, a) :: calls as (step s a)

variable {step} {as : List ι} {s : σ} {I P : σ → Prop} {ok : σ → ι → Prop}

theorem mem_states_self : s ∈ states step as s := by
  cases as with
  | nil => exact .head _
  | cons a as => exact .head _


/-- **Good states and fitting calls.**  `I` is what holds in any case. -/
theorem forall_states_iff (hinv : ∀ s a, I s → I (step s a))
    (hstep : ∀ s a, I s → P s → (P (step s a) ↔ ok s a)) (hI : I s) (hP : P s) :
    (∀ t ∈ states step as s, P t) ↔ ∀ call ∈ calls step as s, ok call.1 call.2 := by
  induction as generalizing s with
  | nil =>
      rw [states, calls, List.forall_mem_singleton]
      exact iff_of_true hP (List.forall_mem_nil _)
  | cons a as ih =>
      rw [states, calls, List.forall_mem_cons, List.forall_mem_cons, and_iff_right hP,
        ← hstep s a hI hP]
      constructor
      · intro h
        have hnext := h _ mem_states_self
        exact ⟨hnext, (ih (hinv s a hI) hnext).mp h⟩
      · rintro ⟨hnext, h⟩
        exact (ih (hinv s a hI) hnext).mpr h

end LinuxProgram.Lib.CallSequence
