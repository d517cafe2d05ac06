import Mathlib

/-!
# Agents in a list

The parties of a system, or the calls that are under way, as a list in which each keeps
its place.  A step of one of them replaces it, and a new one comes at the end.

* `getElem?_set`, `getElem?_concat` — who stands where.
* `forall_set`, `forall_concat` — a property of all of them.
* `countP_set`, `countP_concat` — how many have a property.
* `Numbered` — numbers that are given out in order, to some of them.
-/

namespace LinuxProgram.Lib.Agents

variable {α : Type*} {xs : List α} {i j : ℕ} {x y z : α}

theorem lt_length (h : xs[i]? = some x) : i < xs.length := (List.getElem?_eq_some_iff.mp h).1

theorem getElem?_set (h : xs[i]? = some x) (y : α) (j : ℕ) :
    (xs.set i y)[j]? = if j = i then some y else xs[j]? := by
  rw [List.getElem?_set]
  rcases eq_or_ne i j with rfl | hne
  · rw [if_pos rfl, if_pos (lt_length h), if_pos rfl]
  · rw [if_neg hne, if_neg hne.symm]

theorem getElem?_concat (xs : List α) (y : α) (j : ℕ) :
    (xs ++ [y])[j]? = if j = xs.length then some y else xs[j]? := by
  rw [List.getElem?_append, List.getElem?_singleton]
  split
  · rw [if_neg (by omega)]
  · split
    · rw [if_pos (by omega)]
    · rw [if_neg (by omega), List.getElem?_eq_none (by omega)]

/-- What is known of all agents is known of them after a step of one of them. -/
theorem forall_set {P : α → Prop} (h : ∀ x ∈ xs, P x) (hy : P y) : ∀ x ∈ xs.set i y, P x := by
  intro x hx
  rcases List.mem_or_eq_of_mem_set hx with hx | rfl
  · exact h x hx
  · exact hy

/-- And after a new one has come. -/
theorem forall_concat {P : α → Prop} (h : ∀ x ∈ xs, P x) (hy : P y) : ∀ x ∈ xs ++ [y], P x := by
  rw [List.forall_mem_append, List.forall_mem_singleton]
  exact ⟨h, hy⟩

theorem mem_set_self (h : xs[i]? = some x) (y : α) : y ∈ xs.set i y := by
  refine List.mem_iff_getElem?.mpr ⟨i, ?_⟩
  rw [getElem?_set h, if_pos rfl]

/-- **How many agents have a property**, after a step of one of them. -/
theorem countP_set (h : xs[i]? = some x) (y : α) (p : α → Bool) :
    (xs.set i y).countP p + (if p x then 1 else 0) = xs.countP p + if p y then 1 else 0 := by
  obtain ⟨hlt, rfl⟩ := List.getElem?_eq_some_iff.mp h
  have hpos : p xs[i] = true → 0 < xs.countP p := fun hp =>
    List.countP_pos_iff.mpr ⟨xs[i], List.getElem_mem hlt, hp⟩
  rw [List.countP_set hlt]
  split
  · rename_i hp
    have := hpos hp
    omega
  · omega

theorem countP_concat (xs : List α) (y : α) (p : α → Bool) :
    (xs ++ [y]).countP p = xs.countP p + if p y then 1 else 0 := by
  rw [List.countP_append, List.countP_singleton]

/-- A step that leaves a property as it is. -/
theorem countP_set_same (h : xs[i]? = some x) {p : α → Bool} (hp : p y = p x) :
    (xs.set i y).countP p = xs.countP p := by
  have hset := countP_set h y p
  rw [hp] at hset
  exact Nat.add_right_cancel hset

/-- A step that leaves a component as it is. -/
theorem map_set {β : Type*} {f : α → β} (h : xs[i]? = some x) (hf : f y = f x) :
    (xs.set i y).map f = xs.map f := by
  rw [List.map_set, hf]
  apply List.ext_getElem?
  intro j
  have hi : (xs.map f)[i]? = some (f x) := by rw [List.getElem?_map, h, Option.map_some]
  rw [getElem?_set hi]
  split
  · rename_i hj
    rw [hj, hi]
  · rfl

/-! ### Numbers -/

/-- **The numbers below `n`** are given out, each to one agent. -/
structure Numbered (numbers : List (Option ℕ)) (n : ℕ) : Prop where
  lt : ∀ k, some k ∈ numbers → k < n
  own : ∀ (i j k : ℕ), numbers[i]? = some (some k) → numbers[j]? = some (some k) → i = j
  onto : ∀ k < n, some k ∈ numbers

namespace Numbered

variable {numbers : List (Option ℕ)} {n : ℕ}

theorem nil : Numbered [] 0 where
  lt k h := by cases h
  own i j k h := by cases h
  onto k h := absurd h (Nat.not_lt_zero k)

/-- A new agent, without a number. -/
theorem concat (h : Numbered numbers n) : Numbered (numbers ++ [none]) n where
  lt k hk := by
    rcases List.mem_append.mp hk with hk | hk
    · exact h.lt k hk
    · cases List.mem_singleton.mp hk
  own i j k hi hj := by
    rw [getElem?_concat] at hi hj
    split at hi
    · cases hi
    · split at hj
      · cases hj
      · exact h.own i j k hi hj
  onto k hk := List.mem_append_left _ (h.onto k hk)

/-- **The next number** is given out. -/
theorem give (h : Numbered numbers n) (hi : numbers[i]? = some none) :
    Numbered (numbers.set i (some n)) (n + 1) where
  lt k hk := by
    rcases List.mem_or_eq_of_mem_set hk with hk | hk
    · exact (h.lt k hk).trans (Nat.lt_succ_self n)
    · rw [Option.some.inj hk]
      exact Nat.lt_succ_self n
  own j j' k hj hj' := by
    have hother : ∀ j, numbers[j]? = some (some k) → k ≠ n := fun j hj =>
      (h.lt k (List.mem_of_getElem? hj)).ne
    rw [getElem?_set hi] at hj hj'
    split at hj
    · rename_i hji
      have hk : k = n := (Option.some.inj (Option.some.inj hj)).symm
      split at hj'
      · rename_i hji'
        exact hji.trans hji'.symm
      · exact absurd hk (hother j' hj')
    · split at hj'
      · exact absurd (Option.some.inj (Option.some.inj hj')).symm (hother j hj)
      · exact h.own j j' k hj hj'
  onto k hk := by
    rcases Nat.lt_succ_iff_lt_or_eq.mp hk with hlt | rfl
    · -- nobody loses a number
      obtain ⟨j, hj⟩ := List.mem_iff_getElem?.mp (h.onto k hlt)
      refine List.mem_iff_getElem?.mpr ⟨j, ?_⟩
      rw [getElem?_set hi, if_neg ?_, hj]
      rintro rfl
      rw [hi] at hj
      cases hj
    · exact mem_set_self hi _

end Numbered

end LinuxProgram.Lib.Agents
