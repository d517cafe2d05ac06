import Mathlib

/-!
# Pools of slots

A pool has a number of slots.  Some are free and the others live; which is which changes
when a slot is taken and when one is given back, in any order.

* `Split` — the free slots and the live ones are all slots, each of them once.
* `Split.take` and `Split.give` — that stays so.
* `Split.mem_free_iff`, `Split.free_eq_nil_iff` — what is free is what is not live, and
  nothing is free exactly if as many are live as there are.
-/

namespace LinuxProgram.Lib.SlotPool

universe u

variable {α : Type u} {slots free live : List α} {a : α}

/-- **Every slot is free or live, and that once.**  As a permutation it says nothing of the order
in which slots are taken and given back. -/
def Split (slots free live : List α) : Prop := (free ++ live).Perm slots

theorem split_initial (slots : List α) : Split slots slots [] := by
  rw [Split, List.append_nil]

/-- **Taking the first free slot** makes it live. -/
theorem Split.take (h : Split slots (a :: free) live) : Split slots free (a :: live) :=
  List.perm_middle.trans h

/-- **Giving a slot back** that is live makes it free. -/
theorem Split.give [DecidableEq α] (h : Split slots free live) (ha : a ∈ live) :
    Split slots (a :: free) (live.erase a) := by
  have hmiddle : (a :: free ++ live.erase a).Perm (free ++ a :: live.erase a) :=
    List.perm_middle.symm
  exact (hmiddle.trans ((List.perm_cons_erase ha).symm.append_left free)).trans h

theorem Split.nodup (h : Split slots free live) (hslots : slots.Nodup) : (free ++ live).Nodup :=
  h.nodup_iff.mpr hslots

theorem Split.mem_of_live (h : Split slots free live) (ha : a ∈ live) : a ∈ slots :=
  h.subset (List.mem_append_right _ ha)

/-- **What is free** is what is not live, if the slots are different ones. -/
theorem Split.mem_free_iff (h : Split slots free live) (hslots : slots.Nodup) (ha : a ∈ slots) :
    a ∈ free ↔ a ∉ live := by
  constructor
  · exact fun hfree hlive => List.disjoint_of_nodup_append (h.nodup hslots) hfree hlive
  · intro hlive
    rcases List.mem_append.mp (h.symm.subset ha) with hfree | hmem
    · exact hfree
    · exact absurd hmem hlive

theorem Split.length_eq (h : Split slots free live) : free.length + live.length = slots.length := by
  rw [← List.length_append]
  exact List.Perm.length_eq h

/-- **Nothing is free** when all slots are live. -/
theorem Split.free_eq_nil_iff (h : Split slots free live) :
    free = [] ↔ live.length = slots.length := by
  have hlength := h.length_eq
  rw [← List.length_eq_zero_iff]
  omega

end LinuxProgram.Lib.SlotPool
