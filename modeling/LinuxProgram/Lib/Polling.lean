import Mathlib

/-!
# Polling a source that grows

A reader polls a source: each poll sees some part of it, given by an index such as
its length, and returns an item or nothing.

* `run` — the results of a sequence of polls.
* `poll` — the reader that is meant.  Its state is the list of the items that are
  left, each with the length from which on it is complete; a poll returns the first
  one if it is complete.
* `run_eq_of_simulation` — a reader whose polls agree with it, step by step, has its
  results.
* `run_poll_prefix`, `run_poll_complete`, `run_poll_null`, `run_poll_all` — these are
  the items in order, a poll returns nothing only if the next item is not complete,
  it changes nothing then, and in the end there are all of them.
-/

namespace LinuxProgram.Lib.Polling

universe u v w

variable {ι : Type u} {σ : Type v} {τ : Type v} {α : Type w}

/-- **The results of a sequence of polls.** -/
def run (step : ι → σ → Option α × σ) : List ι → σ → List (Option α)
  | [], _ => []
  | i :: polls, s => (step i s).1 :: run step polls (step i s).2

/-- The state behind it. -/
def after (step : ι → σ → Option α × σ) : List ι → σ → σ
  | [], s => s
  | i :: polls, s => after step polls (step i s).2

theorem run_append (step : ι → σ → Option α × σ) (polls polls' : List ι) (s : σ) :
    run step (polls ++ polls') s = run step polls s ++ run step polls' (after step polls s) := by
  induction polls generalizing s with
  | nil => rfl
  | cons i polls ih => exact congrArg ((step i s).1 :: ·) (ih _)

theorem length_run (step : ι → σ → Option α × σ) (polls : List ι) (s : σ) :
    (run step polls s).length = polls.length := by
  induction polls generalizing s with
  | nil => rfl
  | cons i polls ih => exact congrArg (· + 1) (ih _)

/-- **Simulation.**  Two readers whose polls return the same in related states, and
keep them related, have the same results. -/
theorem run_eq_of_simulation {step : ι → σ → Option α × σ} {step' : ι → τ → Option α × τ}
    {rel : σ → τ → Prop} (hsim : ∀ i s t, rel s t →
      (step i s).1 = (step' i t).1 ∧ rel (step i s).2 (step' i t).2)
    (polls : List ι) {s : σ} {t : τ} (h : rel s t) : run step polls s = run step' polls t := by
  induction polls generalizing s t with
  | nil => rfl
  | cons i polls ih =>
      obtain ⟨hres, hrel⟩ := hsim i s t h
      rw [run, run, hres, ih hrel]

/-! ### The reader that is meant -/

/-- **A poll at length `n`** returns the first item if it is complete. -/
def poll (n : ℕ) : List (ℕ × α) → Option α × List (ℕ × α)
  | [] => (none, [])
  | (complete, x) :: items =>
      if complete ≤ n then (some x, items) else (none, (complete, x) :: items)

variable {items : List (ℕ × α)} {n : ℕ}

/-- **A poll that returns nothing changes nothing.** -/
theorem poll_null (h : (poll n items).1 = none) : (poll n items).2 = items := by
  cases items with
  | nil => rfl
  | cons item items =>
      rw [poll] at h ⊢
      split
      · rename_i hle
        rw [if_pos hle] at h
        cases h
      · rfl

/-- It returns nothing only if the next item is not complete. -/
theorem poll_null_iff : (poll n items).1 = none ↔ ∀ item ∈ items.head?, n < item.1 := by
  cases items with
  | nil => simp [poll]
  | cons item items =>
      rw [poll]
      split
      · rename_i hle
        simpa using hle
      · rename_i hlt
        simpa using hlt

/-- The items that are left are those that were not returned. -/
theorem after_poll (polls : List ℕ) (items : List (ℕ × α)) :
    after poll polls items = items.drop (run poll polls items).reduceOption.length := by
  induction polls generalizing items with
  | nil => rfl
  | cons n polls ih =>
      rw [run, after, ih]
      cases items with
      | nil => simp [poll]
      | cons item items =>
          rw [poll]
          split
          · rw [List.reduceOption_cons_of_some]
            rfl
          · rw [List.reduceOption_cons_of_none]

/-- **What is returned are the items in order.** -/
theorem run_poll_prefix (polls : List ℕ) (items : List (ℕ × α)) :
    (run poll polls items).reduceOption <+: items.map Prod.snd := by
  induction polls generalizing items with
  | nil => exact List.nil_prefix
  | cons n polls ih =>
      rw [run]
      cases items with
      | nil => exact ih []
      | cons item items =>
          rw [poll]
          split
          · rw [List.reduceOption_cons_of_some, List.map_cons, List.prefix_cons_inj]
            exact ih items
          · rw [List.reduceOption_cons_of_none]
            exact ih _

/-- The result of a poll in a sequence. -/
theorem getElem?_run (step : ι → σ → Option α × σ) (polls polls' : List ι) (i : ι) (s : σ) :
    (run step (polls ++ i :: polls') s)[polls.length]? = some (step i (after step polls s)).1 := by
  rw [run_append, ← length_run step polls s, List.getElem?_append_right le_rfl, Nat.sub_self]
  rfl

/-- **A poll returns nothing only if the next item is not complete.** -/
theorem run_poll_complete {polls polls' : List ℕ}
    (h : (run poll (polls ++ n :: polls') items)[polls.length]? = some none) :
    ∀ item ∈ items[(run poll polls items).reduceOption.length]?, n < item.1 := by
  rw [getElem?_run, Option.some.injEq, poll_null_iff, after_poll, List.head?_drop] at h
  exact h

/-- **A poll that returned nothing may be left out.** -/
theorem run_poll_null {polls polls' : List ℕ}
    (h : (run poll (polls ++ n :: polls') items)[polls.length]? = some none) :
    run poll (polls ++ polls') items
      = (run poll (polls ++ n :: polls') items).eraseIdx polls.length := by
  rw [getElem?_run, Option.some.injEq] at h
  rw [run_append, run_append, ← length_run poll polls items,
    List.eraseIdx_append_of_length_le le_rfl, Nat.sub_self, run, List.eraseIdx_cons_zero,
    poll_null h]

/-- **In the end there are all items**: as many polls at a length at which everything
is complete as there are items. -/
theorem run_poll_all {polls : List ℕ} (hcomplete : ∀ item ∈ items, item.1 ≤ n)
    (hcount : items.length ≤ polls.count n) :
    (run poll polls items).reduceOption = items.map Prod.snd := by
  induction polls generalizing items with
  | nil =>
      obtain rfl : items = [] := List.length_eq_zero_iff.mp (Nat.le_zero.mp hcount)
      rfl
  | cons m polls ih =>
      rw [run]
      cases items with
      | nil => exact ih hcomplete (Nat.zero_le _)
      | cons item items =>
          rw [poll]
          split
          · rw [List.reduceOption_cons_of_some, ih fun i hi => hcomplete i (.tail _ hi)]
            · rfl
            · rw [List.count_cons, List.length_cons] at hcount
              split at hcount <;> omega
          · rename_i hlt
            rw [List.reduceOption_cons_of_none]
            refine ih hcomplete ?_
            have hne : m ≠ n := fun h => hlt (h ▸ hcomplete item (.head _))
            rwa [List.count_cons_of_ne hne] at hcount

end LinuxProgram.Lib.Polling
