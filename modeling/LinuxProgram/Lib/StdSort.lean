import Mathlib

/-!
# `std::sort`

`std::sort` is not stable: on elements the comparator does not separate, the
result is whatever the implementation leaves.  A program that calls it is
therefore modelled against *every* sorting routine that keeps the promise of the
standard, and a routine carries that promise as fields.

* `StrictWeak` — the requirement on the comparator.
* `StdSort` — a sorting routine together with its promise.
* `StdSort.insertion` — one such routine, so that the models can be run.
-/

namespace LinuxProgram.Lib

universe u v

variable {α : Type u}

/-- **A strict weak order**, as the comparator of `std::sort` must be. -/
structure StrictWeak (lt : α → α → Bool) : Prop where
  irrefl : ∀ a, lt a a = false
  trans_not : ∀ {a b c}, lt b a = false → lt c b = false → lt c a = false
  asymm : ∀ {a b}, lt a b = true → lt b a = false

/-- Comparing by a key, larger keys first, is a strict weak order. -/
theorem StrictWeak.ofKeyDesc {β : Type v} [LinearOrder β] (key : α → β) :
    StrictWeak fun a b => decide (key a > key b) where
  irrefl a := decide_eq_false (lt_irrefl (key a))
  trans_not := by
    intro a b c hab hbc
    rw [decide_eq_false_iff_not, gt_iff_lt, not_lt] at hab hbc ⊢
    exact hbc.trans hab
  asymm := by
    intro a b h
    rw [decide_eq_true_eq, gt_iff_lt] at h
    rw [decide_eq_false_iff_not, gt_iff_lt, not_lt]
    exact h.le

/-- **A sorting routine** with the promise of `std::sort`: it rearranges the
range, and no element of the result has to come before an earlier one. -/
structure StdSort (α : Type u) where
  run : (α → α → Bool) → List α → List α
  perm : ∀ {lt}, StrictWeak lt → ∀ l, (run lt l).Perm l
  sorted : ∀ {lt}, StrictWeak lt → ∀ l, (run lt l).Pairwise fun a b => lt b a = false

namespace StdSort

/-- Insertion sort is such a routine. -/
def insertion : StdSort α where
  run lt l := l.insertionSort fun a b => lt b a = false
  perm _ l := List.perm_insertionSort _ l
  sorted {lt} hlt l := by
    have : Std.Total fun a b => lt b a = false := ⟨fun a b => by
      by_cases h : lt b a = true
      · exact Or.inr (hlt.asymm h)
      · exact Or.inl (by simpa using h)⟩
    have : IsTrans α fun a b => lt b a = false :=
      ⟨fun a b c hab hbc => hlt.trans_not hab hbc⟩
    exact List.pairwise_insertionSort _ l

instance : Inhabited (StdSort α) := ⟨insertion⟩

end StdSort

end LinuxProgram.Lib
