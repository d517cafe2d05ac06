import LinuxProgram.Lib.Predecessor

/-!
# The sort of upper_bound.cpp

Templates sort a list of numbers when they are instantiated.  `for_each_impl` puts the
largest number behind what it makes of the numbers below, the largest of which
`upper_bound` finds.  Where nothing is below, `upper_bound` gives the limit itself.

* `maxValue`, `nearest`, `upperBound`, `forEachImpl`, `forEach2` — the templates.
* `upperBound_isPred` — `upperBound` is the predecessor of the limit among the numbers.
* `upperBound_eq` — it is the largest number below the limit.
* `forEach2_iff` — the numbers come out sorted exactly if none of them other than the
  smallest is there twice.
* `forEach2_repeats` — the numbers 3, 1, 3.
-/

namespace LinuxProgram.MetaProgram

open Lib.Predecessor

/-- **`Max`** of at least two numbers, which compares the first two and drops the smaller one. -/
def maxValue : ℤ → ℤ → List ℤ → ℤ
  | N1, N2, [] => if N1 ≥ N2 then N1 else N2
  | N1, N2, N3 :: Num => if N1 ≥ N2 then maxValue N1 N3 Num else maxValue N2 N3 Num

/-- **`Min`** of at least two numbers, in the same way. -/
def minValue : ℤ → ℤ → List ℤ → ℤ
  | N1, N2, [] => if N1 < N2 then N1 else N2
  | N1, N2, N3 :: Num => if N1 < N2 then minValue N1 N3 Num else minValue N2 N3 Num

/-- **`Nearest`**, which of two numbers comes nearer to the limit from below. -/
def nearest (Limit N1 N2 : ℤ) : ℤ :=
  let max := maxValue Limit N1 [N2]
  let min := minValue Limit N1 [N2]
  let value1 := if Limit = max then maxValue N1 N2 [] else min
  if value1 = Limit then min else value1

/-- **`upper_bound`** of a limit and at least one number. -/
def upperBound (Limit : ℤ) : ℤ → List ℤ → ℤ
  | N, [] => N
  | N1, N2 :: Nums => upperBound Limit (nearest Limit N1 N2) Nums

/-- **`for_each_impl`**, the list `ResultType`.  There is no instance for `N = 0`. -/
def forEachImpl (N1 : ℤ) (Nums : List ℤ) : ℕ → ℤ → List ℤ
  | 0, _ => []
  | 1, Limit => [Limit]
  | N + 2, Limit =>
      let MaxSofar := upperBound Limit N1 Nums
      forEachImpl N1 Nums (N + 1) MaxSofar ++ [Limit]

/-- **`for_each2`**, what it prints. -/
def forEach2 (N1 N2 : ℤ) (Nums : List ℤ) : List ℤ :=
  let N := (N1 :: N2 :: Nums).length
  let Limit := maxValue N1 N2 Nums
  forEachImpl N1 (N2 :: Nums) N Limit

variable {Limit b : ℤ} {Nums l : List ℤ}

/-! ### The largest number -/

theorem maxValue_mem (N1 N2 : ℤ) (Nums : List ℤ) : maxValue N1 N2 Nums ∈ N1 :: N2 :: Nums := by
  induction Nums generalizing N1 N2 with
  | nil =>
      unfold maxValue
      split
      · exact .head _
      · exact .tail _ (.head _)
  | cons N3 Num ih =>
      unfold maxValue
      split
      · rcases List.mem_cons.mp (ih N1 N3) with h | h
        · exact List.mem_cons.mpr (.inl h)
        · exact .tail _ (.tail _ h)
      · exact .tail _ (ih N2 N3)

theorem le_maxValue (N1 N2 : ℤ) (Nums : List ℤ) :
    ∀ x ∈ N1 :: N2 :: Nums, x ≤ maxValue N1 N2 Nums := by
  induction Nums generalizing N1 N2 with
  | nil =>
      unfold maxValue
      rw [List.forall_mem_cons, List.forall_mem_singleton]
      split <;> omega
  | cons N3 Num ih =>
      unfold maxValue
      rw [List.forall_mem_cons, List.forall_mem_cons]
      split
      · have h := ih N1 N3
        rw [List.forall_mem_cons] at h
        exact ⟨h.1, by omega, h.2⟩
      · have h := ih N2 N3
        rw [List.forall_mem_cons] at h
        exact ⟨by omega, h.1, h.2⟩

/-! ### The predecessor of a limit -/

theorem nearest_isPred (Limit N1 N2 : ℤ) : IsPred [N1, N2] Limit (nearest Limit N1 N2) := by
  unfold IsPred nearest
  rw [List.mem_pair, List.forall_mem_cons, List.forall_mem_singleton, List.forall_mem_cons,
    List.forall_mem_singleton]
  simp only [maxValue, minValue]
  split_ifs <;> omega

/-- What `upperBound` goes on from stands for the numbers it has passed. -/
theorem upperBound_of_isPred (h : IsPred l Limit b) :
    IsPred (l ++ Nums) Limit (upperBound Limit b Nums) := by
  induction Nums generalizing l b with
  | nil =>
      rw [List.append_nil]
      exact h
  | cons N Nums ih =>
      rw [List.append_cons]
      exact ih (h.append (nearest_isPred Limit b N))

/-- **`upper_bound`** of at least two numbers. -/
theorem upperBound_isPred (Limit N1 N2 : ℤ) (Nums : List ℤ) :
    IsPred (N1 :: N2 :: Nums) Limit (upperBound Limit N1 (N2 :: Nums)) :=
  upperBound_of_isPred (nearest_isPred Limit N1 N2)

/-- **The strict predecessor**: the largest number below the limit, or the limit itself if
there is none. -/
theorem upperBound_eq (Limit N1 N2 : ℤ) (Nums : List ℤ) :
    upperBound Limit N1 (N2 :: Nums) =
      (((N1 :: N2 :: Nums).filter (· < Limit)).max?).getD Limit :=
  (upperBound_isPred Limit N1 N2 Nums).eq_max?

/-! ### The sort -/

theorem forEachImpl_eq_chain (N1 : ℤ) (Nums : List ℤ) (N : ℕ) (Limit : ℤ) :
    forEachImpl N1 Nums N Limit = chain (fun limit => upperBound limit N1 Nums) N Limit := by
  induction N generalizing Limit with
  | zero => rfl
  | succ N ih =>
      cases N with
      | zero => rfl
      | succ N =>
          rw [forEachImpl, chain, ih]

/-- **The numbers come out sorted** exactly if none other than the smallest is there
twice. -/
theorem forEach2_iff (N1 N2 : ℤ) (Nums : List ℤ) :
    ((forEach2 N1 N2 Nums).Perm (N1 :: N2 :: Nums) ∧ (forEach2 N1 N2 Nums).Pairwise (· ≤ ·)) ↔
      ∀ x ∈ N1 :: N2 :: Nums, (∃ y ∈ N1 :: N2 :: Nums, y < x) →
        (N1 :: N2 :: Nums).count x ≤ 1 := by
  have hpred : ∀ limit, IsPred (N1 :: N2 :: Nums) limit (upperBound limit N1 (N2 :: Nums)) :=
    fun limit => upperBound_isPred limit N1 N2 Nums
  have hchain : forEach2 N1 N2 Nums = chain (fun limit => upperBound limit N1 (N2 :: Nums))
      (N1 :: N2 :: Nums).length (maxValue N1 N2 Nums) :=
    forEachImpl_eq_chain _ _ _ _
  rw [hchain, and_iff_left (pairwise_chain fun limit => (hpred limit).le)]
  exact chain_perm_iff hpred (maxValue_mem N1 N2 Nums) (le_maxValue N1 N2 Nums)

/-- **The numbers 3, 1, 3**, which `main` sorts: 1 comes out twice, and 3 once. -/
theorem forEach2_repeats : ¬ ∀ (N1 N2 : ℤ) (Nums : List ℤ),
    (forEach2 N1 N2 Nums).Perm (N1 :: N2 :: Nums) ∧
      (forEach2 N1 N2 Nums).Pairwise (· ≤ ·) := by
  intro h
  have hcount := (h 3 1 [3]).1.count_eq 3
  exact absurd hcount (by decide)

end LinuxProgram.MetaProgram
