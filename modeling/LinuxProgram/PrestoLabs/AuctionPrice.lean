import LinuxProgram.Lib.CallAuction
import LinuxProgram.PrestoLabs.Auction

/-!
# The auction price

The first pass of `ProcessAuctionOrders` scans the buy levels, best price first,
and compares `buyPrice * totalCrossQty` with the best value so far.  Its data are
prefix sums: the total of a buy level is the demand at its price, and the
quantity `BookSell::match(Qty, buyPrice)` takes off it is the supply at that
price (`matchQty_snd`).  So the scan is the scan for the largest turnover of the
call auction between the lines (`firstPassStep_eq`), and the price it ends with is
optimal among all prices (`targetPrice_optimal`).

If nothing can be traded at any price the target price is `0`; every price then
attains the maximum, so it is not the largest one that does.
-/

namespace LinuxProgram.PrestoLabs

open Lib Lib.CallAuction

variable {lines : List OrderLine}

/-! ### The lines as limit orders -/

/-- A price as a number of currency units. -/
def Price.value (p : Price) : ℚ := (p.toNat : ℚ) / 1000

theorem Price.value_le {p q : Price} : Price.value p ≤ Price.value q ↔ p.toNat ≤ q.toNat := by
  rw [Price.value, Price.value, div_le_div_iff_of_pos_right (by norm_num), Nat.cast_le]

/-- The limit orders of one side. -/
def quotes (lines : List OrderLine) (s : Side) : List (Quote ℚ) :=
  (lines.filter fun o => o.side = s).map fun o => ⟨Price.value o.price, o.qty.toNat⟩

/-- The quantity bid at `p` or above. -/
abbrev demandAt (lines : List OrderLine) (p : ℚ) : ℕ := demand (quotes lines .BUY) p

/-- The quantity offered at `p` or below. -/
abbrev supplyAt (lines : List OrderLine) (p : ℚ) : ℕ := supply (quotes lines .SELL) p

theorem demandAt_value (lines : List OrderLine) (p : Price) :
    demandAt lines (Price.value p) = lineQty lines .BUY fun q => !cmp .BUY p q := by
  simp only [demandAt, demand, quotes, lineQty, List.filter_map, List.map_map, List.filter_filter]
  refine congrArg List.sum (congrArg _ (List.filter_congr fun o _ => ?_))
  rw [Bool.and_comm]
  refine congrArg _ ?_
  rw [Bool.eq_iff_iff, Bool.not_eq_true', ← Bool.not_eq_true, cmp_buy_iff]
  simp [Price.value_le]

theorem supplyAt_value (lines : List OrderLine) (p : Price) :
    supplyAt lines (Price.value p) = lineQty lines .SELL fun q => !cmp .SELL p q := by
  simp only [supplyAt, supply, quotes, lineQty, List.filter_map, List.map_map,
    List.filter_filter]
  refine congrArg List.sum (congrArg _ (List.filter_congr fun o _ => ?_))
  rw [Bool.and_comm]
  refine congrArg _ ?_
  rw [Bool.eq_iff_iff, Bool.not_eq_true', ← Bool.not_eq_true, cmp_sell_iff]
  simp [Price.value_le]

/-! ### The first pass -/

section FirstPass

variable {w : World}

/-- **`BookSell::match(qty, crossPrice)`** takes off what is offered at the price. -/
theorem matchQty_snd (h : OpenInv lines w) (s : Side) (qty : ℕ) (p : Price) :
    (matchQty (w.book s) qty p).2 = qty - min qty (lineQty lines s fun q => !cmp s p q) := by
  rw [← h.resting s, matchQty]
  cases hentries : (w.book s).entries with
  | nil => simp [restingQty, hentries]
  | cons e rest =>
      obtain ⟨best, g⟩ := e
      have hsplit : (w.book s).Split [] best g rest := hentries
      dsimp only
      by_cases hcmp : cmp s p best = true
      · -- the price is before the best level: nothing is offered at it
        rw [if_pos hcmp, restingQty, SortedMap.sumWhere_eq_zero _ _ fun x hx hφ => ?_]
        · simp
        · rw [hentries] at hx
          rcases List.mem_cons.mp hx with rfl | hx
          · simp [hcmp] at hφ
          · simp [ComparatorLaws.trans hcmp (hsplit.after hx)] at hφ
      · rw [if_neg hcmp]
        obtain ⟨pre, post, hl, hub, hpre, hpost⟩ := (w.book s).upperBound_split p
        -- the level before `upper_bound` is the last one that is not after the price
        have hne : pre ≠ [] := by
          rintro rfl
          rw [List.nil_append] at hl
          exact hcmp (hpost (best, g) (by rw [← hl, hentries]; exact List.mem_cons_self))
        obtain ⟨init, last, rfl⟩ := List.eq_nil_or_concat pre |>.resolve_left hne
        rw [List.concat_eq_append] at hl hub hpre
        have hlast : (w.book s).Split init last.1 last.2 post := by
          rw [SortedMap.Split, hl]
          simp
        have hget : (w.book s).entries[(w.book s).upperBound p - 1]? = some last := by
          rw [hub, hl]
          simp
        have htotal := h.prefixTotal s last hlast.mem
        rw [← h.resting s] at htotal
        have hsame : restingQty w s (fun q => !cmp s last.1 q)
            = restingQty w s fun q => !cmp s p q := by
          rw [restingQty, hlast.sumWhere_notAfter, restingQty, hl,
            SortedMap.sumWhere_prefix _ _ (fun x hx => ?_) fun x hx => ?_]
          · simp
          · simp [hpre x hx]
          · simp [hpost x hx]
        rw [← hentries, hget]
        simp only [Option.map_some, Option.getD_some, OrderGroup.getTotalQty, htotal, hsame]

/-- **The first pass is the scan for the largest turnover.** -/
theorem firstPassStep_eq (h : OpenInv lines w) (best : ℚ × Price) {e : Price × OrderGroup}
    (he : e ∈ (w.book .BUY).entries) :
    firstPassStep (w.book .SELL) best e =
      scanMax (fun p => turnover (quotes lines .BUY) (quotes lines .SELL) (Price.value p))
        best e.1 := by
  have hdem : e.2.mTotalQty = demandAt lines (Price.value e.1) := by
    rw [demandAt_value]
    exact h.prefixTotal .BUY e he
  have hcross : e.2.getTotalQty - (matchQty (w.book .SELL) e.2.getTotalQty e.1).2
      = min (demandAt lines (Price.value e.1)) (supplyAt lines (Price.value e.1)) := by
    rw [matchQty_snd h, OrderGroup.getTotalQty, hdem, supplyAt_value]
    omega
  have hleft : (e.1.toNat : ℚ) / 1000
      * (min (demandAt lines (Price.value e.1)) (supplyAt lines (Price.value e.1)) : ℕ)
      = turnover (quotes lines .BUY) (quotes lines .SELL) (Price.value e.1) := rfl
  have hright : ((min (demandAt lines (Price.value e.1)) (supplyAt lines (Price.value e.1)) : ℕ)
      : ℚ) / 1000 * (e.1.toNat : ℚ)
      = turnover (quotes lines .BUY) (quotes lines .SELL) (Price.value e.1) := by
    rw [← hleft]
    ring
  rw [firstPassStep, hcross, hleft, hright, scanMax]
  by_cases hlt : best.1 < turnover (quotes lines .BUY) (quotes lines .SELL) (Price.value e.1)
  · rw [if_pos hlt, if_pos hlt, max_eq_right hlt.le]
  · rw [if_neg hlt, if_neg hlt]

theorem firstPass_eq (h : OpenInv lines w) :
    firstPass w = ((w.book .BUY).entries.map Prod.fst).foldl
      (scanMax fun p => turnover (quotes lines .BUY) (quotes lines .SELL) (Price.value p))
      (0, 0) := by
  rw [firstPass, List.foldl_map]
  exact List.foldl_ext _ _ _ fun best e he => firstPassStep_eq h best he

/-- The bid prices are the prices of the buy levels. -/
theorem exists_level_of_bid (h : OpenInv lines w) {b : Quote ℚ} (hb : b ∈ quotes lines .BUY) :
    ∃ p ∈ (w.book .BUY).entries.map Prod.fst, b.price = Price.value p := by
  obtain ⟨o, ho, rfl⟩ := List.mem_map.mp hb
  obtain ⟨hmem, hside⟩ := List.mem_filter.mp ho
  obtain ⟨n, hn⟩ := List.mem_iff_getElem?.mp hmem
  obtain ⟨hslot, hptr⟩ := h.slot n o hn
  rw [decide_eq_true_eq] at hside
  rw [hside] at hptr
  obtain ⟨e, he, hp⟩ := List.mem_flatMap.mp hptr
  refine ⟨e.1, List.mem_map_of_mem he, ?_⟩
  rw [← (h.own .BUY e he n hp).2, hslot]
  rfl

theorem firstPass_optimal (h : OpenInv lines w) :
    Optimal (quotes lines .BUY) (quotes lines .SELL) (Price.value (targetPrice w)) := by
  have hsorted : ((w.book .BUY).entries.map Prod.fst).Pairwise fun a b =>
      Price.value b < Price.value a := by
    rw [List.pairwise_map]
    refine (w.book .BUY).sorted.imp fun {a b} hab => ?_
    rw [cmp_buy_iff] at hab
    rw [← not_le, Price.value_le]
    omega
  obtain ⟨hmax, -, hres⟩ := foldl_scanMax
    (fun p => turnover (quotes lines .BUY) (quotes lines .SELL) (Price.value p)) Price.value
    ((w.book .BUY).entries.map Prod.fst) (0, 0) hsorted
  rw [← firstPass_eq h] at hmax hres
  have hvalue : (firstPass w).1
      = turnover (quotes lines .BUY) (quotes lines .SELL) (Price.value (targetPrice w)) := by
    rcases hres with hzero | ⟨-, hval, -, -⟩
    · simp [targetPrice, hzero, Price.value, turnover]
    · exact hval
  rw [hvalue] at hmax hres
  refine optimal_of_bids (fun b hb => ?_) (fun hpos b hb heq => ?_) ?_
  · obtain ⟨p, hp, hbp⟩ := exists_level_of_bid h hb
    rw [hbp]
    exact hmax p hp
  · obtain ⟨p, hp, hbp⟩ := exists_level_of_bid h hb
    rw [hbp] at heq ⊢
    rcases hres with hzero | ⟨-, -, -, hlargest⟩
    · rw [← hvalue, hzero] at hpos
      exact absurd hpos (lt_irrefl _)
    · exact hlargest p hp heq
  · rcases hres with hzero | ⟨-, -, hpos, -⟩
    · exact .inl (by simp [targetPrice, hzero, Price.value])
    · exact .inr hpos

end FirstPass

/-! ### The target price -/

/-- **The target price is optimal**: it maximises `p * min (D p) (S p)` over all
prices, it is the largest price to do so if anything can be traded, and it is zero
if and only if nothing can. -/
theorem targetPrice_optimal (lines : List OrderLine) :
    Optimal (quotes lines .BUY) (quotes lines .SELL)
      (Price.value (targetPrice (auctionOpen lines))) :=
  firstPass_optimal (auctionOpen_inv lines)

/-- A price that is the largest maximiser even when nothing can be traded. -/
structure LargestMaximiser (bids asks : List (Quote ℚ)) (t : ℚ) : Prop where
  max : ∀ p, turnover bids asks p ≤ turnover bids asks t
  largest : ∀ p, turnover bids asks p = turnover bids asks t → p ≤ t
  zero_iff : t = 0 ↔ turnover bids asks t = 0

/-- A buyer without a seller: whatever the price, nothing is traded, so that every price attains the
maximum, and the target price keeps its initial value. -/
theorem targetPrice_not_largest :
    ¬ ∀ lines, LargestMaximiser (quotes lines .BUY) (quotes lines .SELL)
      (Price.value (targetPrice (auctionOpen lines))) := by
  intro h
  let lines : List OrderLine :=
    [{ id := "1", party := "A", price := 10000, qty := 5, sequence := 1, side := .BUY }]
  have hsell : quotes lines .SELL = [] := rfl
  have hzero : targetPrice (auctionOpen lines) = 0 := by decide +kernel
  have hnothing : ∀ p : ℚ, turnover (quotes lines .BUY) [] p = 0 := fun p => by
    rw [turnover, show supply [] p = 0 from rfl, Nat.min_zero, Nat.cast_zero, mul_zero]
  have hlargest := (h lines).largest 1
  rw [hsell, hzero] at hlargest
  have hle := hlargest ((hnothing 1).trans (hnothing _).symm)
  norm_num [Price.value] at hle

end LinuxProgram.PrestoLabs
