import Mathlib

/-!
# Call auctions

The mathematics of a single-price auction over limit orders, for prices in any
ordered field: what the bids ask for and the asks offer at a price, the turnover
`p * min (demand p) (supply p)`, and the price that maximises it.

* `demand`, `supply`, `turnover`.
* `exists_bid_le_turnover` — every price with a positive turnover is beaten by a
  bid price at or above it, so the bid prices decide the maximum
  (`optimal_of_bids`).
* `Optimal` — a price that maximises the turnover over *all* prices, is the
  largest to do so if there is anything to trade, and is `0` if there is not.
* `Optimal.demand_le_supply` — what optimality says about the other prices: no
  more is bid above the optimal price than is offered at it.
* `scanMax` — the usual strict-improvement scan; over strictly falling prices it
  finds the largest maximiser.
* `fill_eq_min` — matching a bid at its own limit takes what a matching at the
  clearing price would take.
-/

namespace LinuxProgram.Lib

universe u

/-- A limit order: a price and a quantity. -/
structure Quote (K : Type u) where
  price : K
  qty : ℕ

namespace CallAuction

/-! ### Demand and supply -/

/-- A weaker condition selects at least as much. -/
theorem filter_qty_mono {K : Type u} {φ ψ : Quote K → Bool} (h : ∀ q, φ q = true → ψ q = true)
    (l : List (Quote K)) :
    ((l.filter φ).map Quote.qty).sum ≤ ((l.filter ψ).map Quote.qty).sum := by
  induction l with
  | nil => exact le_rfl
  | cons q l ih =>
      by_cases hφ : φ q = true
      · simp only [List.filter_cons, hφ, h q hφ, if_true, List.map_cons, List.sum_cons]
        omega
      · by_cases hψ : ψ q = true
        · simp only [List.filter_cons, hφ, hψ, if_true, List.map_cons, List.sum_cons]
          exact ih.trans (Nat.le_add_left _ _)
        · rw [List.filter_cons_of_neg hφ, List.filter_cons_of_neg hψ]
          exact ih

section Curves

variable {K : Type u} [LinearOrder K]

/-- The quantity bid at `p` or above. -/
def demand (bids : List (Quote K)) (p : K) : ℕ :=
  ((bids.filter fun b => p ≤ b.price).map Quote.qty).sum

/-- The quantity offered at `p` or below. -/
def supply (asks : List (Quote K)) (p : K) : ℕ :=
  ((asks.filter fun a => a.price ≤ p).map Quote.qty).sum

theorem demand_anti (bids : List (Quote K)) {p q : K} (h : p ≤ q) :
    demand bids q ≤ demand bids p :=
  filter_qty_mono (fun b hb => by
    rw [decide_eq_true_eq] at hb ⊢
    exact h.trans hb) bids

theorem supply_mono (asks : List (Quote K)) {p q : K} (h : p ≤ q) :
    supply asks p ≤ supply asks q :=
  filter_qty_mono (fun a ha => by
    rw [decide_eq_true_eq] at ha ⊢
    exact ha.trans h) asks

/-- **Demand is constant up to the next bid**: if anything is bid at `p` or above,
the lowest such bid has the same demand. -/
theorem exists_next_bid {bids : List (Quote K)} {p : K} (h : demand bids p ≠ 0) :
    ∃ b ∈ bids, p ≤ b.price ∧ demand bids b.price = demand bids p := by
  have hne : bids.filter (fun b => p ≤ b.price) ≠ [] := by
    intro hnil
    rw [demand, hnil] at h
    exact h rfl
  obtain ⟨b, hb⟩ := Option.ne_none_iff_exists'.mp
    (mt List.argmin_eq_none.mp hne : (bids.filter fun b => p ≤ b.price).argmin Quote.price ≠ none)
  have hmem := List.mem_filter.mp (List.argmin_mem hb)
  have hp : p ≤ b.price := by simpa using hmem.2
  refine ⟨b, hmem.1, hp, ?_⟩
  rw [demand, demand]
  congr 2
  refine List.filter_congr fun x hx => ?_
  rw [decide_eq_decide]
  refine ⟨hp.trans, fun hpx => ?_⟩
  exact List.le_of_mem_argmin (List.mem_filter.mpr ⟨hx, by simpa using hpx⟩) hb

end Curves

/-! ### Turnover and the optimal price -/

section Turnover

variable {K : Type u} [Field K] [LinearOrder K] [IsStrictOrderedRing K]
  {bids asks : List (Quote K)}

/-- The value traded at `p`. -/
def turnover (bids asks : List (Quote K)) (p : K) : K :=
  p * (min (demand bids p) (supply asks p) : ℕ)

/-- **The best price over all prices.** -/
structure Optimal (bids asks : List (Quote K)) (t : K) : Prop where
  max : ∀ p, turnover bids asks p ≤ turnover bids asks t
  /-- the largest maximiser, if there is anything to trade -/
  largest : 0 < turnover bids asks t →
    ∀ p, turnover bids asks p = turnover bids asks t → p ≤ t
  zero_iff : t = 0 ↔ turnover bids asks t = 0

/-- **A bid price beats every price below it**: a price with positive turnover has
a bid at or above it with at least that turnover, more if it is above. -/
theorem exists_bid_le_turnover {p : K} (h : 0 < turnover bids asks p) :
    ∃ b ∈ bids, p ≤ b.price ∧ turnover bids asks p ≤ turnover bids asks b.price ∧
      (p < b.price → turnover bids asks p < turnover bids asks b.price) := by
  rw [turnover] at h
  have hq : (0 : K) < (min (demand bids p) (supply asks p) : ℕ) := by
    rcases (Nat.cast_nonneg (min (demand bids p) (supply asks p)) : (0 : K) ≤ _).lt_or_eq with
      hq | hq
    · exact hq
    · rw [← hq, mul_zero] at h
      exact absurd h (lt_irrefl 0)
  have hp : 0 < p := (mul_pos_iff_of_pos_right hq).mp h
  have hne : demand bids p ≠ 0 := by
    intro h0
    rw [h0] at hq
    simp at hq
  obtain ⟨b, hb, hpb, hdem⟩ := exists_next_bid hne
  have hsup := supply_mono asks hpb
  have hle : ((min (demand bids p) (supply asks p) : ℕ) : K)
      ≤ (min (demand bids b.price) (supply asks b.price) : ℕ) := by
    rw [Nat.cast_le, hdem]
    omega
  refine ⟨b, hb, hpb, ?_, fun hlt => ?_⟩
  · exact mul_le_mul hpb hle hq.le (hp.le.trans hpb)
  · exact mul_lt_mul hlt hle hq (hp.le.trans hpb)

/-- **The bid prices decide**: a price that is best among the bids is best among
all prices. -/
theorem optimal_of_bids {t : K} (hmax : ∀ b ∈ bids, turnover bids asks b.price
      ≤ turnover bids asks t)
    (hlargest : 0 < turnover bids asks t → ∀ b ∈ bids,
      turnover bids asks b.price = turnover bids asks t → b.price ≤ t)
    (ht : t = 0 ∨ 0 < turnover bids asks t) : Optimal bids asks t := by
  have hnonneg : 0 ≤ turnover bids asks t := by
    rcases ht with rfl | ht
    · simp [turnover]
    · exact ht.le
  exact {
    max := fun p => by
      rcases le_or_gt (turnover bids asks p) 0 with hp | hp
      · exact hp.trans hnonneg
      · obtain ⟨b, hb, -, hle, -⟩ := exists_bid_le_turnover hp
        exact hle.trans (hmax b hb)
    largest := fun hpos p heq => by
      obtain ⟨b, hb, hpb, hle, hlt⟩ := exists_bid_le_turnover (p := p) (by rwa [heq])
      rcases hpb.lt_or_eq with hpb | hpb
      · exact absurd (hlt hpb) (by rw [heq]; exact not_lt.mpr (hmax b hb))
      · rw [hpb]
        refine hlargest hpos b hb ?_
        rw [← hpb, heq]
    zero_iff := by
      constructor
      · rintro rfl
        simp [turnover]
      · intro h0
        exact ht.resolve_right (by rw [h0]; exact lt_irrefl 0) }

/-- **What optimality says about a higher price**: it is not bid for more than is
offered at the optimal price, or nothing more is offered there. -/
theorem Optimal.demand_le_supply {t p : K} (h : Optimal bids asks t) (hp : t < p) (ht : 0 ≤ t) :
    demand bids p ≤ supply asks t ∨ (t = 0 ∧ supply asks p = supply asks t) := by
  by_contra hcon
  rw [not_or, not_le] at hcon
  obtain ⟨hlt, hzero⟩ := hcon
  have hanti := demand_anti bids hp.le
  have hmono := supply_mono asks hp.le
  have hqt : min (demand bids t) (supply asks t) = supply asks t := by omega
  have hqp : supply asks t ≤ min (demand bids p) (supply asks p) := by omega
  have hle := h.max p
  rw [turnover, turnover, hqt] at hle
  rcases Nat.eq_zero_or_pos (supply asks t) with hs | hs
  · -- nothing is offered at `t`, so the maximum is zero and so is `t`
    have htz : t = 0 := h.zero_iff.mpr (by rw [turnover, hqt, hs]; simp)
    rw [hs, Nat.cast_zero, mul_zero] at hle
    have hpz : min (demand bids p) (supply asks p) = 0 := by
      by_contra hne
      have : (0 : K) < p * (min (demand bids p) (supply asks p) : ℕ) :=
        mul_pos (ht.trans_lt hp) (Nat.cast_pos.mpr (Nat.pos_of_ne_zero hne))
      exact absurd hle (not_le.mpr this)
    exact hzero ⟨htz, by omega⟩
  · have h1 : t * (supply asks t : K) < p * (supply asks t : K) :=
      mul_lt_mul_of_pos_right hp (Nat.cast_pos.mpr hs)
    have h2 : p * (supply asks t : K) ≤ p * (min (demand bids p) (supply asks p) : ℕ) :=
      mul_le_mul_of_nonneg_left (Nat.cast_le.mpr hqp) (ht.trans hp.le)
    exact absurd (h1.trans_le (h2.trans hle)) (lt_irrefl _)

end Turnover

/-! ### The strict-improvement scan -/

section Scan

variable {K : Type*} {V : Type*} {κ : Type*} [LinearOrder K] [LinearOrder V]

/-- One step of the scan for the maximum of `f`: the candidate `k` replaces the best
one so far only if it is strictly better. -/
def scanMax (f : κ → V) (best : V × κ) (k : κ) : V × κ :=
  if best.1 < f k then (f k, k) else best

/-- **The scan**: it keeps what it started with, or finds the first maximum, which
over falling prices has the largest price. -/
theorem foldl_scanMax (f : κ → V) (price : κ → K) :
    ∀ (l : List κ) (best : V × κ), (l.Pairwise fun a b => price b < price a) →
      (∀ k ∈ l, f k ≤ (l.foldl (scanMax f) best).1) ∧
      best.1 ≤ (l.foldl (scanMax f) best).1 ∧
      (l.foldl (scanMax f) best = best ∨
        (l.foldl (scanMax f) best).2 ∈ l ∧
        (l.foldl (scanMax f) best).1 = f (l.foldl (scanMax f) best).2 ∧
        best.1 < (l.foldl (scanMax f) best).1 ∧
        ∀ k ∈ l, f k = (l.foldl (scanMax f) best).1 →
          price k ≤ price (l.foldl (scanMax f) best).2) := by
  intro l
  induction l with
  | nil => exact fun best _ => ⟨by simp, le_rfl, .inl rfl⟩
  | cons x l ih =>
      intro best hl
      rw [List.pairwise_cons] at hl
      obtain ⟨hmax, hbest, hres⟩ := ih (scanMax f best x) hl.2
      rw [List.foldl_cons]
      generalize l.foldl (scanMax f) (scanMax f best x) = r at hmax hbest hres
      have hx : f x ≤ (scanMax f best x).1 ∧ best.1 ≤ (scanMax f best x).1 := by
        rw [scanMax]
        split
        · rename_i h
          exact ⟨le_rfl, h.le⟩
        · rename_i h
          exact ⟨not_lt.mp h, le_rfl⟩
      refine ⟨fun k hk => ?_, hx.2.trans hbest, ?_⟩
      · rcases List.mem_cons.mp hk with rfl | hk
        · exact hx.1.trans hbest
        · exact hmax k hk
      · rcases hres with rfl | ⟨hmem, hval, hlt, hlargest⟩
        · rw [scanMax]
          split
          · rename_i h
            refine .inr ⟨List.mem_cons_self, rfl, h, fun k hk _ => ?_⟩
            rcases List.mem_cons.mp hk with rfl | hk
            · exact le_rfl
            · exact (hl.1 k hk).le
          · exact .inl rfl
        · refine .inr ⟨List.mem_cons_of_mem _ hmem, hval, hx.2.trans_lt hlt, fun k hk hk' => ?_⟩
          rcases List.mem_cons.mp hk with rfl | hk
          · exact absurd (hx.1.trans_lt hlt) (by rw [hk']; exact lt_irrefl _)
          · exact hlargest k hk hk'

end Scan

/-! ### Filling the bids at their own limits -/

/-- **Own limit or clearing price**: `filled` units were taken by the bids before,
which asked for `asked`, as if all of them were matched at a price offering
`atPrice`; a bid for `qty` more, matched at a limit offering `atLimit`, takes what
it would take at that price, if the bids together do not ask for more than is
offered there or nothing more is offered at the limit. -/
theorem fill_eq_min {filled asked qty atLimit atPrice : ℕ} (h : filled = min asked atPrice)
    (hle : atPrice ≤ atLimit) (hok : asked + qty ≤ atPrice ∨ atLimit = atPrice) :
    filled + min qty (atLimit - filled) = min (asked + qty) atPrice := by
  omega

end CallAuction

end LinuxProgram.Lib
