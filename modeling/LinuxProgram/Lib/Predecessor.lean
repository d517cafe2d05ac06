import Mathlib

/-!
# Chains of predecessors

In a list over a linear order, the predecessor of a limit is the largest element below it,
or the limit itself if there is none.

* `IsPred.eq_max?` — it is the maximum of what is below the limit.
* `chain` — a limit and the predecessors below it, as many as are asked for.
* `pairwise_chain` — it is in ascending order.
* `chain_perm_iff` — from the largest element, and as long as the list, it is a permutation
  of the list exactly if no element other than the smallest occurs twice.
-/

namespace LinuxProgram.Lib.Predecessor

universe u

variable {α : Type u} [LinearOrder α] {l l' : List α} {limit b v x : α}

/-- **The predecessor** of a limit. -/
def IsPred (l : List α) (limit v : α) : Prop :=
  (v ∈ l ∧ v < limit ∧ ∀ x ∈ l, x < limit → x ≤ v) ∨ (v = limit ∧ ∀ x ∈ l, limit ≤ x)

theorem IsPred.le (h : IsPred l limit v) : v ≤ limit := by
  rcases h with ⟨-, hlt, -⟩ | ⟨heq, -⟩
  · exact hlt.le
  · exact heq.le

theorem IsPred.lt (h : IsPred l limit v) (hx : x ∈ l) (hlt : x < limit) : v < limit := by
  rcases h with ⟨-, hv, -⟩ | ⟨-, hmin⟩
  · exact hv
  · exact absurd hlt (hmin x hx).not_gt

/-- Nothing is between the predecessor and the limit. -/
theorem IsPred.le_of_lt (h : IsPred l limit v) (hx : x ∈ l) (hlt : x < limit) : x ≤ v := by
  rcases h with ⟨-, -, hmax⟩ | ⟨-, hmin⟩
  · exact hmax x hx hlt
  · exact absurd hlt (hmin x hx).not_gt

theorem IsPred.mem (h : IsPred l limit v) (hlimit : limit ∈ l) : v ∈ l := by
  rcases h with ⟨hv, -, -⟩ | ⟨rfl, -⟩
  · exact hv
  · exact hlimit

/-- **One element after the other**: the predecessor so far stands for all elements. -/
theorem IsPred.append (hb : IsPred l limit b) (hv : IsPred (b :: l') limit v) :
    IsPred (l ++ l') limit v := by
  rcases hv with ⟨hmem, hlt, hmax⟩ | ⟨heq, hmin⟩
  · rw [List.forall_mem_cons] at hmax
    refine .inl ⟨?_, hlt, ?_⟩
    · rcases List.mem_cons.mp hmem with rfl | hmem
      · rcases hb with ⟨hbmem, -, -⟩ | ⟨hbeq, -⟩
        · exact List.mem_append_left _ hbmem
        · exact absurd hbeq hlt.ne
      · exact List.mem_append_right _ hmem
    · rw [List.forall_mem_append]
      refine ⟨fun x hx hxlt => ?_, hmax.2⟩
      exact (hb.le_of_lt hx hxlt).trans (hmax.1 (hb.lt hx hxlt))
  · rw [List.forall_mem_cons] at hmin
    refine .inr ⟨heq, ?_⟩
    rw [List.forall_mem_append]
    refine ⟨fun x hx => ?_, hmin.2⟩
    by_contra hlt
    exact absurd (hb.lt hx (not_le.mp hlt)) (not_lt.mpr hmin.1)

/-- **There is one predecessor**: the maximum of what is below the limit. -/
theorem IsPred.eq_max? (h : IsPred l limit v) : v = ((l.filter (· < limit)).max?).getD limit := by
  rcases h with ⟨hmem, hlt, hmax⟩ | ⟨rfl, hmin⟩
  · have hsome : (l.filter (· < limit)).max? = some v := by
      rw [List.max?_eq_some_iff, List.mem_filter, decide_eq_true_eq]
      refine ⟨⟨hmem, hlt⟩, fun x hx => ?_⟩
      rw [List.mem_filter, decide_eq_true_eq] at hx
      exact hmax x hx.1 hx.2
    rw [hsome, Option.getD_some]
  · have hnil : l.filter (· < v) = [] := by
      rw [List.filter_eq_nil_iff]
      intro x hx
      rw [decide_eq_true_eq]
      exact not_lt.mpr (hmin x hx)
    rw [hnil, List.max?_nil, Option.getD_none]

/-! ### Chains -/

/-- **A limit and its predecessors**, `n` in all, with the last one in front. -/
def chain (pred : α → α) : ℕ → α → List α
  | 0, _ => []
  | n + 1, limit => chain pred n (pred limit) ++ [limit]

variable {pred : α → α} {n : ℕ}

theorem le_of_mem_chain (hpred : ∀ limit, pred limit ≤ limit) (hx : x ∈ chain pred n limit) :
    x ≤ limit := by
  induction n generalizing limit with
  | zero => nomatch hx
  | succ n ih =>
      rw [chain, List.mem_append, List.mem_singleton] at hx
      rcases hx with hx | rfl
      · exact (ih hx).trans (hpred limit)
      · exact le_rfl

/-- **A chain is in ascending order.** -/
theorem pairwise_chain (hpred : ∀ limit, pred limit ≤ limit) :
    (chain pred n limit).Pairwise (· ≤ ·) := by
  induction n generalizing limit with
  | zero => exact .nil
  | succ n ih =>
      rw [chain, List.pairwise_append]
      refine ⟨ih, List.pairwise_singleton _ _, fun x hx y hy => ?_⟩
      rw [List.mem_singleton.mp hy]
      exact (le_of_mem_chain hpred hx).trans (hpred limit)

/-- What has something below it is passed once. -/
theorem count_chain_le_one (hpred : ∀ limit, IsPred l limit (pred limit))
    (hx : ∃ y ∈ l, y < x) : (chain pred n limit).count x ≤ 1 := by
  induction n generalizing limit with
  | zero => exact Nat.zero_le 1
  | succ n ih =>
      rw [chain, List.count_append]
      by_cases heq : x = limit
      · obtain ⟨y, hy, hlt⟩ := hx
        rw [heq] at hlt ⊢
        have hnot : limit ∉ chain pred n (pred limit) := fun hmem =>
          absurd (le_of_mem_chain (fun limit => (hpred limit).le) hmem)
            (not_le.mpr ((hpred limit).lt hy hlt))
        rw [List.count_eq_zero.mpr hnot, List.count_singleton_self]
      · rw [List.count_singleton, beq_eq_false_iff_ne.mpr (Ne.symm heq), if_neg Bool.false_ne_true]
        exact ih

omit [LinearOrder α] in
/-- Below the smallest element there is only itself. -/
theorem chain_eq_replicate (h : pred limit = limit) :
    chain pred n limit = List.replicate n limit := by
  induction n with
  | zero => rfl
  | succ n ih => rw [chain, h, ih, List.replicate_succ']

theorem count_filter_of_le (h : x ≤ limit) : (l.filter (· ≤ limit)).count x = l.count x := by
  apply List.count_filter
  exact decide_eq_true h

theorem count_filter_of_lt (h : limit < x) : (l.filter (· ≤ limit)).count x = 0 := by
  rw [List.count_eq_zero, List.mem_filter, not_and, decide_eq_true_eq]
  exact fun _ => not_le.mpr h

/-- The elements up to a limit are those up to its predecessor and itself, if it is there
once. -/
theorem perm_filter_le (h : IsPred l limit v) (hx : ∃ y ∈ l, y < limit)
    (hcount : l.count limit = 1) :
    (l.filter (· ≤ limit)).Perm (l.filter (· ≤ v) ++ [limit]) := by
  obtain ⟨y, hy, hylt⟩ := hx
  have hlt := h.lt hy hylt
  rw [List.perm_iff_count]
  intro a
  rw [List.count_append, List.count_singleton]
  rcases lt_trichotomy a limit with ha | rfl | ha
  · rw [beq_eq_false_iff_ne.mpr ha.ne', if_neg Bool.false_ne_true, count_filter_of_le ha.le]
    by_cases hmem : a ∈ l
    · rw [count_filter_of_le (h.le_of_lt hmem ha)]
      rfl
    · have hnot : a ∉ l.filter (· ≤ v) := fun hfilter => hmem (List.mem_of_mem_filter hfilter)
      rw [List.count_eq_zero.mpr hmem, List.count_eq_zero.mpr hnot]
  · rw [count_filter_of_le le_rfl, count_filter_of_lt hlt, hcount, beq_self_eq_true, if_pos rfl]
  · rw [beq_eq_false_iff_ne.mpr ha.ne, if_neg Bool.false_ne_true, count_filter_of_lt ha,
      count_filter_of_lt (hlt.trans ha)]

/-- **The chain from an element** down to the smallest, if the others are there once. -/
theorem chain_perm_filter (hpred : ∀ limit, IsPred l limit (pred limit))
    (honce : ∀ x ∈ l, (∃ y ∈ l, y < x) → l.count x ≤ 1) (hlimit : limit ∈ l)
    (hn : (l.filter (· ≤ limit)).length = n) :
    (chain pred n limit).Perm (l.filter (· ≤ limit)) := by
  induction n generalizing limit with
  | zero =>
      have hmem : limit ∈ l.filter (· ≤ limit) :=
        List.mem_filter.mpr ⟨hlimit, decide_eq_true le_rfl⟩
      rw [List.length_eq_zero_iff.mp hn] at hmem
      nomatch hmem
  | succ n ih =>
      by_cases hbelow : ∃ y ∈ l, y < limit
      · have hcount : l.count limit = 1 :=
          Nat.le_antisymm (honce limit hlimit hbelow) (List.one_le_count_iff.mpr hlimit)
        have hperm := perm_filter_le (hpred limit) hbelow hcount
        have hlength := hperm.length_eq
        rw [hn, List.length_append, List.length_singleton] at hlength
        rw [chain]
        exact ((ih ((hpred limit).mem hlimit) (by omega)).append_right _).trans hperm.symm
      · -- the smallest element, as often as it is there
        have hmin : ∀ y ∈ l, limit ≤ y := fun y hy => not_lt.mp fun hlt => hbelow ⟨y, hy, hlt⟩
        have hself : pred limit = limit := by
          rcases hpred limit with ⟨hmem, hlt, -⟩ | ⟨heq, -⟩
          · exact absurd hlt (hmin _ hmem).not_gt
          · exact heq
        have hall : l.filter (· ≤ limit) = List.replicate (n + 1) limit := by
          rw [List.eq_replicate_iff]
          refine ⟨hn, fun y hy => ?_⟩
          rw [List.mem_filter, decide_eq_true_eq] at hy
          exact le_antisymm hy.2 (hmin y hy.1)
        rw [chain_eq_replicate hself, hall]

/-- **A chain is a permutation of the list** exactly if nothing but the smallest element
occurs twice. -/
theorem chain_perm_iff (hpred : ∀ limit, IsPred l limit (pred limit)) (hlimit : limit ∈ l)
    (hmax : ∀ x ∈ l, x ≤ limit) :
    (chain pred l.length limit).Perm l ↔ ∀ x ∈ l, (∃ y ∈ l, y < x) → l.count x ≤ 1 := by
  constructor
  · intro hperm x _ hx
    rw [← hperm.count_eq]
    exact count_chain_le_one hpred hx
  · intro honce
    have hall : l.filter (· ≤ limit) = l :=
      List.filter_eq_self.mpr fun x hx => decide_eq_true (hmax x hx)
    have hchain := chain_perm_filter hpred honce hlimit rfl
    rwa [hall] at hchain

end LinuxProgram.Lib.Predecessor
