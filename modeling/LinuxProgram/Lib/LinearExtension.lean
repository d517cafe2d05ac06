import Mathlib

/-!
# Linear extensions

A relation says which of two elements is to come first, and leaves others in any order.  A
list `Respects` it if nothing comes too late.

* `Respects.pivot` — what is below an element comes in front of it, all the rest behind, and
  both parts respect the relation: so does the whole, if the relation is transitive.  That the
  rest is not comparable with the element is no harm.
* `Respects.idxOf_lt` — the places in a list without duplicates.
-/

namespace LinuxProgram.Lib

variable {α : Type*} {r : α → α → Prop} {l front behind : List α} {a b x : α}

/-- **No element comes behind one that is to come later.** -/
def Respects (r : α → α → Prop) (l : List α) : Prop := l.Pairwise fun a b => ¬ r b a

namespace Respects

theorem nil : Respects r [] := List.Pairwise.nil

/-- **A pivot.** -/
theorem pivot [IsTrans α r] [Std.Irrefl r] (hfront : Respects r front)
    (hbehind : Respects r behind) (hbelow : ∀ a ∈ front, r a x) (hrest : ∀ b ∈ behind, ¬ r b x) :
    Respects r (front ++ [x] ++ behind) := by
  have hx : ∀ a ∈ front, ¬ r x a := fun a ha hxa =>
    irrefl x (Trans.trans hxa (hbelow a ha))
  have hcross : ∀ a ∈ front, ∀ b ∈ behind, ¬ r b a := fun a ha b hb hba =>
    hrest b hb (Trans.trans hba (hbelow a ha))
  refine List.pairwise_append.mpr ⟨List.pairwise_append.mpr
    ⟨hfront, List.pairwise_singleton _ _, ?_⟩, hbehind, ?_⟩
  · intro a ha y hy
    rw [List.mem_singleton.mp hy]
    exact hx a ha
  · intro a ha b hb
    rcases List.mem_append.mp ha with ha | ha
    · exact hcross a ha b hb
    · rw [List.mem_singleton.mp ha]
      exact hrest b hb

/-- What is to come first has the smaller index. -/
theorem idxOf_lt [DecidableEq α] [Std.Irrefl r] (h : Respects r l) (hb : b ∈ l) (hab : r a b)
    (ha : a ∈ l) : l.idxOf a < l.idxOf b := by
  have hne : l.idxOf a ≠ l.idxOf b := by
    intro heq
    rw [(List.idxOf_inj ha).mp heq] at hab
    exact irrefl b hab
  refine lt_of_le_of_ne (Nat.le_of_not_lt fun hlt => ?_) hne
  have hpair := List.pairwise_iff_getElem.mp h (l.idxOf b) (l.idxOf a)
    (List.idxOf_lt_length_iff.mpr hb) (List.idxOf_lt_length_iff.mpr ha) hlt
  rw [List.getElem_idxOf, List.getElem_idxOf] at hpair
  exact hpair hab

end Respects

end LinuxProgram.Lib
