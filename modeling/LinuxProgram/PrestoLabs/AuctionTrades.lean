import LinuxProgram.PrestoLabs.AuctionPrice

/-!
# The trades of the auction

The second pass matches every buy order at its own limit and never looks at the
target price again, except to stop.  That it nevertheless executes the auction at
the target price `t` rests on two facts.

* A matching run takes the cheapest offers first, so what is left at or below a
  price is always the offer there less what was executed (`OfferLeft`); a run
  against a limit executes as much as is left at that limit
  (`matchOrder_fill`).
* `t` is optimal, so above it no more is bid than is offered at `t`.  Hence the
  orders above `t` are filled from offers at or below `t`, and every order takes
  what it would take at the price `t` (`matchBuyOrders_clearing`).
-/

namespace LinuxProgram.PrestoLabs

open Lib Lib.CallAuction

variable {env : Platform} {pIncoming : ℕ} {w w' : World} {offer : Price → ℕ} {target : Price}

/-! ### One order

A buy order that is matched at its own limit takes from the cheapest offers first.  What it does
to the auction is therefore described without the levels: it lowers what is left of the offer, and
its trades are within the target price as long as the offer at that price lasts. -/

/-- What is left at a price or below is the offer there, less what was executed. -/
def OfferLeft (offer : Price → ℕ) (w : World) : Prop :=
  ∀ p, restingQty w .SELL (fun q => !cmp .SELL p q) = offer p - executed w

/-- No trade of positive quantity is below the target price for its buyer, and none
is above it for its seller before the offer at the target price is used up. -/
def PricedAt (offer : Price → ℕ) (target : Price) (w : World) : Prop :=
  ∀ r ∈ w.reports, r.mCrossQty.toNat ≠ 0 → target ≤ (r.onSide .BUY).price ∧
    (target < (r.onSide .SELL).price → offer target < executed w)

/-- What the matching of one buy order does to the offer. -/
structure FillRun (offer : Price → ℕ) (target : Price) (pIncoming : ℕ) (w w' : World) : Prop where
  offerLeft : OfferLeft offer w'
  balance : (w'.mem pIncoming).leaves + executed w' = (w.mem pIncoming).leaves + executed w
  mono : executed w ≤ executed w'
  bound : executed w' ≤ max (executed w) (offer (w.mem pIncoming).price)
  priced : PricedAt offer target w'

/-- A move takes from what is left at every price its level is within. -/
theorem Moves.offerLeft {key : Price} {c : ℕ} (h : Moves .SELL pIncoming w w' key c)
    (hO : OfferLeft offer w) : OfferLeft offer w' := by
  intro p
  have hrest := h.resting fun q => !cmp .SELL p q
  rw [hO p] at hrest
  rw [h.executed]
  by_cases hin : cmp .SELL p key = true
  · -- the level is above `p`: nothing was left at `p`
    rw [hin] at hrest
    simp only [Bool.not_true, Bool.false_eq_true, if_false, Nat.add_zero] at hrest
    by_cases hc : c = 0
    · omega
    · have hzero : restingQty w .SELL (fun q => !cmp .SELL p q) = 0 := by
        refine restingQty_eq_zero fun e he hφ => h.best hc e he ?_
        exact ComparatorLaws.trans_right (by simpa using hφ) hin
      rw [hO p] at hzero
      omega
  · simp only [Bool.not_eq_true] at hin
    rw [hin] at hrest
    simp only [Bool.not_false, if_true] at hrest
    omega

/-- A move at or above the target price, for its buyer, keeps the trades priced. -/
theorem Moves.pricedAt {key : Price} {c : ℕ} (h : Moves .SELL pIncoming w w' key c)
    (hO : OfferLeft offer w) (htarget : target ≤ (w.mem pIncoming).price)
    (hP : PricedAt offer target w) : PricedAt offer target w' := by
  have hexec := h.executed
  rcases h.reports with hr | ⟨r, hr, hqty, hsell, hbuy⟩
  · intro x hx hpos
    rw [hr] at hx
    obtain ⟨h1, h2⟩ := hP x hx hpos
    exact ⟨h1, fun hlt => by have := h2 hlt; omega⟩
  · intro x hx hpos
    rw [hr, List.mem_append, List.mem_singleton] at hx
    rcases hx with hx | rfl
    · obtain ⟨h1, h2⟩ := hP x hx hpos
      exact ⟨h1, fun hlt => by have := h2 hlt; omega⟩
    · rw [hqty] at hpos
      rw [hsell]
      refine ⟨hbuy ▸ htarget, fun hlt => ?_⟩
      -- the levels at or below the target price were empty when the trade was made
      have hcmp : cmp .SELL target key = true := cmp_sell_iff.mpr (UInt32.lt_iff_toNat_lt.mp hlt)
      have hzero : restingQty w .SELL (fun q => !cmp .SELL target q) = 0 :=
        restingQty_eq_zero fun e he hφ =>
          h.best hpos e he (ComparatorLaws.trans_right (by simpa using hφ) hcmp)
      rw [hO target] at hzero
      omega

/-- A move takes no more than is left at the limit. -/
theorem Moves.executed_le {key : Price} {c : ℕ} (h : Moves .SELL pIncoming w w' key c)
    (hO : OfferLeft offer w) : PrestoLabs.executed w'
      ≤ max (PrestoLabs.executed w) (offer (w.mem pIncoming).price) := by
  have hexec := h.executed
  by_cases hc : c = 0
  · omega
  · have hrest := h.resting fun q => !cmp .SELL (w.mem pIncoming).price q
    rw [hO, h.limit hc] at hrest
    simp only [Bool.not_false, if_true] at hrest
    omega

/-- **The matching of one buy order.** -/
theorem MatchSteps.fillRun (h : MatchSteps env .SELL pIncoming w w') (hI : BookInv w)
    (hside : (w.mem pIncoming).side = .BUY) (hO : OfferLeft offer w)
    (htarget : target ≤ (w.mem pIncoming).price) (hP : PricedAt offer target w) :
    FillRun offer target pIncoming w w' := by
  induction h with
  | refl =>
      exact {
        offerLeft := hO
        balance := rfl
        mono := le_rfl
        bound := le_max_left _ _
        priced := hP }
  | tail hsteps hstep ih =>
      have hside' := (MatchSteps.side_eq hsteps pIncoming).trans hside
      have hprice := MatchSteps.price_eq hsteps pIncoming
      obtain ⟨key, c, hm⟩ := hstep.moves (MatchSteps.bookInv hsteps hside hI) hside'
      have hbal := ih.balance
      have hleaves := hm.leaves
      have hexec := hm.executed
      have hmono := ih.mono
      have hbound := hm.executed_le ih.offerLeft
      rw [hprice] at hbound
      have hbound' := ih.bound
      exact {
        offerLeft := hm.offerLeft ih.offerLeft
        balance := by omega
        mono := by omega
        bound := by omega
        priced := hm.pricedAt ih.offerLeft (by rw [hprice]; exact htarget) ih.priced }

/-- After a call of `matchOrder` the order is filled or nothing is left at its limit. -/
theorem MatchRun.filled_or_exhausted {r : Bool × World} (h : MatchRun env .SELL pIncoming w r) :
    (r.2.mem pIncoming).leaves = 0 ∨
      restingQty r.2 .SELL (fun q => !cmp .SELL (w.mem pIncoming).price q) = 0 := by
  have hout := h.outcome
  generalize r.1 = b at hout
  cases hout with
  | filled hleaves _ => exact .inl hleaves
  | noBook hempty hsame =>
      refine .inr (restingQty_eq_zero fun e he _ => ?_)
      rw [hsame, hempty] at he
      cases he
  | stopped hsplit hdead hprice _ =>
      refine .inr (restingQty_eq_zero fun e he hφ => ?_)
      rw [MatchSteps.price_eq h.steps pIncoming] at hprice
      rw [hsplit, List.mem_append, List.mem_cons] at he
      rcases he with he | rfl | he
      · exact hdead e he
      · simp [hprice] at hφ
      · simp [ComparatorLaws.trans hprice (hsplit.after he)] at hφ
  | exhausted _ _ hdead _ => exact .inr (restingQty_eq_zero fun e he _ => hdead e he)

variable (env) in
/-- **A buy order executes what is left at its limit**, as far as it goes. -/
theorem matchOrder_fill (hI : BookInv w) (hside : (w.mem pIncoming).side = .BUY)
    (hO : OfferLeft offer w) (htarget : target ≤ (w.mem pIncoming).price)
    (hP : PricedAt offer target w) :
    FillRun offer target pIncoming w (matchOrder env .SELL pIncoming w).2 ∧
      executed (matchOrder env .SELL pIncoming w).2 = executed w +
        min (w.mem pIncoming).leaves (offer (w.mem pIncoming).price - executed w) := by
  have hrun := hI.matchOrder_run env (s := .SELL) hside
  have hfill := MatchSteps.fillRun hrun.steps hI hside hO htarget hP
  refine ⟨hfill, ?_⟩
  have hbal := hfill.balance
  have hmono := hfill.mono
  have hbound := hfill.bound
  rcases hrun.filled_or_exhausted with hzero | hzero
  · omega
  · rw [hfill.offerLeft] at hzero
    omega

/-! ### A list of orders

The orders of one level have one limit.  If it is at or above the target price, then what they ask
for is filled up to what the offer at the target price allows, and after them the same description
holds with their quantity added. -/

/-- **The state of the auction** after buy orders for `asked` units were matched: what
was executed is what the price `target` allows. -/
structure Clearing (offer : Price → ℕ) (target : Price) (asked : ℕ) (w : World) : Prop where
  offerLeft : OfferLeft offer w
  executed : executed w = min asked (offer target)
  priced : PricedAt offer target w

variable (env) in
/-- **Matching the orders of one level.** -/
theorem matchBuyOrders_clearing {limit : Price} (htarget : target ≤ limit)
    (hmono : offer target ≤ offer limit) : ∀ {orders : List ℕ} {w : World} {asked : ℕ},
    BookInv w → (∀ p ∈ orders, (w.mem p).side = .BUY ∧ (w.mem p).price = limit) →
    orders.Nodup →
    (asked + leavesSum w.mem orders ≤ offer target ∨ offer limit = offer target) →
    Clearing offer target asked w →
    Clearing offer target (asked + leavesSum w.mem orders) (matchBuyOrders env orders w) ∧
      (asked + leavesSum w.mem orders ≤ offer target →
        ∀ p ∈ orders, ((matchBuyOrders env orders w).mem p).leaves = 0) ∧
      ∀ p, (w.mem p).side = .BUY → p ∉ orders →
        ((matchBuyOrders env orders w).mem p).leaves = (w.mem p).leaves := by
  intro orders
  induction orders with
  | nil => exact fun _ _ _ _ hC => ⟨hC, fun _ _ hp => absurd hp List.not_mem_nil, fun _ _ _ => rfl⟩
  | cons q orders ih =>
      intro w asked hI hown hnd hok hC
      obtain ⟨hside, hprice⟩ := hown q List.mem_cons_self
      rw [List.nodup_cons] at hnd
      rw [leavesSum_cons, ← Nat.add_assoc] at hok ⊢
      have hrun := hI.matchOrder_run env (s := .SELL) hside
      have hframe := MatchSteps.frame hrun.steps
      obtain ⟨hfill, hexec⟩ := matchOrder_fill env hI hside hC.offerLeft
        (by rw [hprice]; exact htarget) hC.priced
      have hother : ∀ p, (w.mem p).side = .BUY → p ≠ q →
          (matchOrder env .SELL q w).2.mem p = w.mem p := fun p hp hne =>
        MatchSteps.mem_of_notMem hrun.steps hne (hI.notMem_ptrs hp)
      have hrest : leavesSum (matchOrder env .SELL q w).2.mem orders = leavesSum w.mem orders := by
        refine leavesSum_congr fun p hp => ?_
        rw [hother p (hown p (List.mem_cons_of_mem _ hp)).1 (fun e => hnd.1 (e ▸ hp))]
      -- the order takes what it would take at the target price
      have hC' : Clearing offer target (asked + (w.mem q).leaves) (matchOrder env .SELL q w).2 := by
        refine ⟨hfill.offerLeft, ?_, hfill.priced⟩
        rw [hexec, hprice]
        exact fill_eq_min hC.executed hmono (hok.imp_left (by omega))
      have hfilled : asked + (w.mem q).leaves ≤ offer target →
          ((matchOrder env .SELL q w).2.mem q).leaves = 0 := by
        intro hle
        have h1 := hC.executed
        have h2 := hC'.executed
        have h3 := hfill.balance
        omega
      have hown' : ∀ p ∈ orders, ((matchOrder env .SELL q w).2.mem p).side = .BUY ∧
          ((matchOrder env .SELL q w).2.mem p).price = limit := by
        intro p hp
        rw [(hframe.2.2.1 p).1]
        exact hown p (List.mem_cons_of_mem _ hp)
      rw [← hrest] at hok ⊢
      obtain ⟨hCend, hall, hkeep⟩ := ih (MatchSteps.bookInv hrun.steps hside hI) hown' hnd.2 hok hC'
      have hq : ((matchOrder env .SELL q w).2.mem q).side = .BUY :=
        (MatchSteps.side_eq hrun.steps q).trans hside
      refine ⟨hCend, fun hle p hp => ?_, fun p hp hnot => ?_⟩
      · rcases List.mem_cons.mp hp with rfl | hp
        · exact (hkeep p hq hnd.1).trans (hfilled (by omega))
        · exact hall hle p hp
      · rw [List.mem_cons, not_or] at hnot
        have hp' : ((matchOrder env .SELL q w).2.mem p).side = .BUY :=
          (MatchSteps.side_eq hrun.steps p).trans hp
        exact (hkeep p hp' hnot.2).trans (congrArg OrderEntry.leaves (hother p hp hnot.1))

/-! ### The second pass

The pass visits the buy levels from the best one down, so what was asked for after a level is the
demand at its price.  The target price being optimal, that demand is covered by the offer at the
target price until the pass stops, and this carries the state from one level to the next. -/

/-- The original quantity of a list of orders. -/
def qtySum (mem : ℕ → OrderEntry) (l : List ℕ) : ℕ := (l.map fun p => (mem p).qty.toNat).sum

theorem qtySum_perm {mem : ℕ → OrderEntry} {l l' : List ℕ} (h : l.Perm l') :
    qtySum mem l = qtySum mem l' :=
  (h.map _).sum_eq

/-- Orders that are as they were constructed have their quantity left. -/
theorem leavesSum_eq_qtySum {mem : ℕ → OrderEntry} {l : List ℕ}
    (h : ∀ p ∈ l, (mem p).leaves = (mem p).qty.toNat) : leavesSum mem l = qtySum mem l :=
  congrArg List.sum (List.map_congr_left h)

/-- The offer at a price. -/
def offerAt (lines : List OrderLine) (p : Price) : ℕ :=
  lineQty lines .SELL fun q => !cmp .SELL p q

theorem offerAt_mono (lines : List OrderLine) {p q : Price} (h : ¬ p > q) :
    offerAt lines p ≤ offerAt lines q := by
  rw [offerAt, offerAt, ← supplyAt_value, ← supplyAt_value]
  refine supply_mono _ (Price.value_le.mpr ?_)
  rwa [gt_iff_lt, UInt32.lt_iff_toNat_lt, not_lt] at h

/-- **The invariant of the second pass**, after the levels `pre`. -/
structure PassInv (lines : List OrderLine) (target : Price) (pre : List (Price × OrderGroup))
    (w : World) : Prop where
  demand : ∀ φ, SortedMap.sumWhere φ (fun g => qtySum w.mem g.mOrders) (w.book .BUY).entries
    = lineQty lines .BUY φ
  slot : ∀ n o, lines[n]? = some o → o.side = .BUY →
    n ∈ ptrs (w.book .BUY) ∧ (w.mem n).toOrderLine = o
  above : ∀ e ∈ pre, ¬ target > e.1
  fresh : ∀ post, (w.book .BUY).entries = pre ++ post → ∀ e ∈ post, ∀ p ∈ e.2.mOrders,
    (w.mem p).leaves = (w.mem p).qty.toNat
  clearing : Clearing (offerAt lines) target (pre.map fun e => qtySum w.mem e.2.mOrders).sum w
  filled : target ≠ 0 → ∀ e ∈ pre, target < e.1 → ∀ p ∈ e.2.mOrders, (w.mem p).leaves = 0

section Pass

variable {lines : List OrderLine}

/-- **What the optimality of the target price says about a buy level**: no more is
bid at its price than is offered at the target price, or nothing more is offered
there. -/
theorem demand_le_offer
    (hopt : Optimal (quotes lines .BUY) (quotes lines .SELL) (Price.value target)) {price : Price}
    (h : ¬ target > price) :
    (lineQty lines .BUY (fun q => !cmp .BUY price q) ≤ offerAt lines target ∨
      offerAt lines price = offerAt lines target) ∧
    (target ≠ 0 → target < price →
      lineQty lines .BUY (fun q => !cmp .BUY price q) ≤ offerAt lines target) := by
  have hzero : Price.value target = 0 → target = 0 := by
    intro h0
    rw [Price.value, div_eq_zero_iff] at h0
    exact UInt32.toNat_inj.mp (by simpa using h0)
  by_cases heq : target = price
  · exact ⟨.inr (by rw [heq]), fun _ hlt => absurd heq (UInt32.ne_of_lt hlt)⟩
  · have hlt : Price.value target < Price.value price := by
      rw [gt_iff_lt, UInt32.lt_iff_toNat_lt] at h
      rw [← not_le, Price.value_le]
      intro hle
      exact heq (UInt32.toNat_inj.mp (by omega))
    have hnonneg : 0 ≤ Price.value target := div_nonneg (Nat.cast_nonneg _) (by norm_num)
    rw [offerAt, offerAt, ← demandAt_value, ← supplyAt_value, ← supplyAt_value]
    rcases hopt.demand_le_supply hlt hnonneg with hle | ⟨h0, hsup⟩
    · exact ⟨.inl hle, fun _ _ => hle⟩
    · exact ⟨.inr hsup, fun hne _ => absurd (hzero h0) hne⟩

section Level

variable {pre post : List (Price × OrderGroup)} {price : Price} {g : OrderGroup}

variable (env)

/-- The orders that the pass matches at a level. -/
theorem sortOrders_own (hI : BookInv w) (h : (w.book .BUY).Split pre price g post) :
    ∀ p ∈ sortOrders env w.mem g.mOrders, (w.mem p).side = .BUY ∧ (w.mem p).price = price :=
  fun p hp => hI.own .BUY _ h.mem p ((sortOrders_perm env w.mem g.mOrders).subset hp)

/-- They stay what they were asked for. -/
theorem passLevel_line (hI : BookInv w) (h : (w.book .BUY).Split pre price g post) (p : ℕ) :
    ((passLevel env pre.length g w).mem p).toOrderLine = (w.mem p).toOrderLine :=
  (matchBuyOrders_run env (hI.sort env h) fun p hp => (sortOrders_own env hI h p hp).1).2.2 p

theorem qtySum_passLevel (hI : BookInv w) (h : (w.book .BUY).Split pre price g post)
    (l : List ℕ) : qtySum (passLevel env pre.length g w).mem l = qtySum w.mem l :=
  congrArg List.sum (List.map_congr_left fun p _ =>
    congrArg (fun x : OrderLine => x.qty.toNat) (passLevel_line env hI h p))

/-- Before the pass comes to a level, nothing of its orders is filled. -/
theorem PassInv.leaves_level (hP : PassInv lines target pre w)
    (h : (w.book .BUY).Split pre price g post) :
    leavesSum w.mem (sortOrders env w.mem g.mOrders) = qtySum w.mem g.mOrders := by
  have hperm := sortOrders_perm env w.mem g.mOrders
  have hfresh := hP.fresh _ h (price, g) List.mem_cons_self
  rw [leavesSum_eq_qtySum fun p hp => hfresh p (hperm.subset hp), qtySum_perm hperm]

/-- **What the orders up to this level ask for** is the demand at its price. -/
theorem PassInv.asked (hP : PassInv lines target pre w)
    (h : (w.book .BUY).Split pre price g post) :
    (pre.map fun e => qtySum w.mem e.2.mOrders).sum
      + leavesSum w.mem (sortOrders env w.mem g.mOrders)
      = lineQty lines .BUY fun q => !cmp .BUY price q := by
  rw [← hP.demand, h.sumWhere_notAfter, hP.leaves_level env h]

/-- **One level of the second pass**: what its orders execute, and that the orders of the
other levels are left alone. -/
theorem passLevel_clearing
    (hopt : Optimal (quotes lines .BUY) (quotes lines .SELL) (Price.value target))
    (hI : BookInv w) (h : (w.book .BUY).Split pre price g post) (ht : ¬ target > price)
    (hP : PassInv lines target pre w) :
    Clearing (offerAt lines) target ((pre.map fun e => qtySum w.mem e.2.mOrders).sum
        + leavesSum w.mem (sortOrders env w.mem g.mOrders)) (passLevel env pre.length g w) ∧
      (target ≠ 0 → target < price → ∀ p ∈ sortOrders env w.mem g.mOrders,
        ((passLevel env pre.length g w).mem p).leaves = 0) ∧
      ∀ e ∈ pre ++ post, ∀ p ∈ e.2.mOrders,
        ((passLevel env pre.length g w).mem p).leaves = (w.mem p).leaves := by
  have hperm := sortOrders_perm env w.mem g.mOrders
  have hown := sortOrders_own env hI h
  have hasked := hP.asked env h
  obtain ⟨hor, habove⟩ := demand_le_offer hopt ht
  have hsorted : Clearing (offerAt lines) target (pre.map fun e => qtySum w.mem e.2.mOrders).sum
      (sortGroup env .BUY pre.length w) := by
    refine ⟨fun p => ?_, hP.clearing.executed, hP.clearing.priced⟩
    rw [restingQty, sortGroup_book_of_ne (by decide)]
    exact hP.clearing.offerLeft p
  obtain ⟨hC, hfilled, hkeep⟩ := matchBuyOrders_clearing env
    (UInt32.not_lt.mp ht) (offerAt_mono lines ht) (hI.sort env h) hown
    (hperm.nodup_iff.mpr (hI.group_nodup h))
    (by rw [← hasked] at hor; exact hor) hsorted
  refine ⟨hC, fun hne hlt p hp => hfilled ?_ p hp, fun e he p hp => ?_⟩
  · exact hasked.trans_le (habove hne hlt)
  · have hmem : e ∈ (w.book .BUY).entries := by
      rw [h]
      rcases List.mem_append.mp he with he | he <;> simp [he]
    exact hkeep p (hI.own .BUY e hmem p hp).1 fun hp' =>
      hI.group_disjoint h e he p hp (hperm.subset hp')

variable {env}

/-- **One level of the second pass keeps the invariant.** -/
theorem passLevel_inv
    (hopt : Optimal (quotes lines .BUY) (quotes lines .SELL) (Price.value target))
    (hI : BookInv w) (h : (w.book .BUY).Split pre price g post) (ht : ¬ target > price)
    (hP : PassInv lines target pre w) :
    PassInv lines target (pre ++ [(price, { g with mOrders := sortOrders env w.mem g.mOrders })])
      (passLevel env pre.length g w) := by
  have hperm := sortOrders_perm env w.mem g.mOrders
  have hsplit := (passLevel_run env hI h).2
  have hqty := qtySum_passLevel env hI h
  obtain ⟨hC, hfilled, hother⟩ := passLevel_clearing env hopt hI h ht hP
  exact {
    demand := fun φ => by
      rw [← hP.demand φ, show (w.book .BUY).entries = _ from h, hsplit]
      simp only [SortedMap.sumWhere_append, SortedMap.sumWhere_cons, hqty, qtySum_perm hperm]
    slot := fun n o hn ho => by
      obtain ⟨hptr, hmem⟩ := hP.slot n o hn ho
      refine ⟨?_, (passLevel_line env hI h n).trans hmem⟩
      rw [ptrs_of_split h] at hptr
      rw [ptrs_of_split hsplit]
      exact ((hperm.symm.append_right _).append_left _).subset hptr
    above := fun e he => by
      rcases List.mem_append.mp he with he | he
      · exact hP.above e he
      · rw [List.mem_singleton.mp he]
        exact ht
    fresh := fun post' hpost' e he p hp => by
      rw [hsplit, List.append_cons] at hpost'
      have he : e ∈ post := List.append_cancel_left hpost' ▸ he
      rw [hother e (List.mem_append_right _ he) p hp,
        congrArg OrderLine.qty (passLevel_line env hI h p)]
      exact hP.fresh _ h e (List.mem_cons_of_mem _ he) p hp
    clearing := by
      have hsum : ((pre ++ [(price, { g with mOrders := sortOrders env w.mem g.mOrders })]).map
          fun e : Price × OrderGroup => qtySum (passLevel env pre.length g w).mem e.2.mOrders).sum
          = (pre.map fun e => qtySum w.mem e.2.mOrders).sum
            + leavesSum w.mem (sortOrders env w.mem g.mOrders) := by
        rw [hP.leaves_level env h]
        simp [hqty, qtySum_perm hperm]
      rw [hsum]
      exact hC
    filled := fun hne e he hlt p hp => by
      rcases List.mem_append.mp he with he | he
      · rw [hother e (List.mem_append_left _ he) p hp]
        exact hP.filled hne e he hlt p hp
      · obtain rfl := List.mem_singleton.mp he
        exact hfilled hne hlt p hp }

end Level

theorem restoreQty_inv (lines : List OrderLine) :
    PassInv lines target [] ((auctionOpen lines).setBook .SELL
      (restoreQty ((auctionOpen lines).book .SELL))) := by
  have hopen := auctionOpen_inv lines
  have hexec : executed (auctionOpen lines) = 0 := by rw [executed, hopen.noReports]; rfl
  have hbuy := (auctionOpen lines).setBook_book_of_ne .SELL
    (restoreQty ((auctionOpen lines).book .SELL)) (show Side.BUY ≠ .SELL by decide)
  have hfresh : ∀ e ∈ ((auctionOpen lines).book .BUY).entries, ∀ p ∈ e.2.mOrders,
      ((auctionOpen lines).mem p).leaves = ((auctionOpen lines).mem p).qty.toNat :=
    fun e he p hp => hopen.fresh .BUY p (List.mem_flatMap.mpr ⟨e, he, hp⟩)
  exact {
    demand := fun φ => by
      rw [hbuy, ← hopen.resting .BUY φ]
      refine (SortedMap.sumWhere_congr _ _ fun e he _ => ?_).symm
      exact leavesSum_eq_qtySum (hfresh e he)
    slot := fun n o hn ho => by
      obtain ⟨hmem, hptr⟩ := hopen.slot n o hn
      rw [hbuy, ← ho]
      exact ⟨hptr, congrArg OrderEntry.toOrderLine hmem⟩
    above := by simp
    fresh := fun post hpost e he p hp => by
      rw [hbuy, List.nil_append] at hpost
      exact hfresh e (hpost ▸ he) p hp
    clearing := {
      offerLeft := fun p => by
        rw [restingQty, World.setBook_book_self, offerAt, ← hopen.resting]
        change _ = _ - executed (auctionOpen lines)
        rw [hexec]
        exact (sameOrders_restoreQty ((auctionOpen lines).book .SELL)).restingQty_eq _
      executed := by
        change executed (auctionOpen lines) = _
        rw [hexec]
        simp
      priced := fun r hr => by
        change r ∈ (auctionOpen lines).reports at hr
        rw [hopen.noReports] at hr
        cases hr }
    filled := by simp }

end Pass

/-! ### The auction -/

/-- **The auction is executed at the price `target`.** -/
structure ExecutedAt (lines : List OrderLine) (target : Price) (w : World) : Prop where
  /-- no trade of positive quantity is above the price for its seller or below it for
  its buyer -/
  priced : ∀ r ∈ w.reports, r.mCrossQty ≠ 0 →
    (r.onSide .SELL).price ≤ target ∧ target ≤ (r.onSide .BUY).price
  /-- what is executed is what can be traded at the price -/
  total : executed w
    = min (demandAt lines (Price.value target)) (supplyAt lines (Price.value target))
  /-- the buy orders above the price are filled -/
  filled : 0 < target → ∀ n o, lines[n]? = some o → o.side = .BUY → target < o.price →
    (w.mem n).toOrderLine = o ∧ (w.mem n).leaves = 0

/-- Levels from one below the price on are below the price. -/
theorem below_of_stop {m : Levels .BUY} {pre post : List (Price × OrderGroup)}
    (hentries : m.entries = pre ++ post) (hstop : ∀ e ∈ post.head?, target > e.1) :
    ∀ e ∈ post, target > e.1 := by
  have hsorted := m.sorted
  rw [hentries, List.pairwise_append] at hsorted
  cases post with
  | nil => exact List.forall_mem_nil _
  | cons x post =>
      have hx := hstop x rfl
      intro e he
      rcases List.mem_cons.mp he with rfl | he
      · exact hx
      · have hcmp := (List.pairwise_cons.mp hsorted.2.1).1 e he
        rw [cmp_buy_iff, ← UInt32.lt_iff_toNat_lt] at hcmp
        exact UInt32.lt_trans hcmp hx

/-- What the orders of all levels that were passed ask for is the demand at the price. -/
theorem PassInv.demanded {lines : List OrderLine} {pre post : List (Price × OrderGroup)}
    (hP : PassInv lines target pre w) (hentries : (w.book .BUY).entries = pre ++ post)
    (hbelow : ∀ e ∈ post, target > e.1) :
    (pre.map fun e => qtySum w.mem e.2.mOrders).sum = demandAt lines (Price.value target) := by
  rw [demandAt_value, ← hP.demand, hentries, SortedMap.sumWhere_prefix _ _ (fun e he => ?_)
    fun e he => ?_]
  · have habove := hP.above e he
    rw [Bool.not_eq_true', ← Bool.not_eq_true, cmp_buy_iff]
    rwa [gt_iff_lt, UInt32.lt_iff_toNat_lt] at habove
  · have hlt := hbelow e he
    rw [Bool.not_eq_false', cmp_buy_iff]
    rwa [gt_iff_lt, UInt32.lt_iff_toNat_lt] at hlt

/-- What the invariant says at the end of the second pass. -/
theorem PassInv.executedAt {lines : List OrderLine} {pre post : List (Price × OrderGroup)}
    (hP : PassInv lines target pre w) (hI : BookInv w)
    (hentries : (w.book .BUY).entries = pre ++ post) (hstop : ∀ e ∈ post.head?, target > e.1) :
    ExecutedAt lines target w := by
  -- the levels that were not passed are below the target price
  have hbelow := below_of_stop hentries hstop
  have hasked := hP.demanded hentries hbelow
  have hexec := hP.clearing.executed
  exact {
    priced := fun r hr hpos => by
      obtain ⟨hbuy, hsell⟩ := hP.clearing.priced r hr fun h0 =>
        hpos (UInt32.toNat_inj.mp (by simpa using h0))
      refine ⟨UInt32.not_lt.mp fun hlt => ?_, hbuy⟩
      have := hsell hlt
      omega
    total := by rw [hexec, hasked, supplyAt_value, offerAt]
    filled := fun hpos n o hn ho hlt => by
      obtain ⟨hptr, hmem⟩ := hP.slot n o hn ho
      obtain ⟨e, he, hp⟩ := List.mem_flatMap.mp hptr
      have hprice : e.1 = o.price := by
        rw [← (hI.own .BUY e he n hp).2]
        exact congrArg OrderLine.price hmem
      refine ⟨hmem, ?_⟩
      rw [hentries, List.mem_append] at he
      rcases he with he | he
      · exact hP.filled (UInt32.ne_of_lt hpos).symm e he (by rw [hprice]; exact hlt) n hp
      · have := hbelow e he
        rw [hprice] at this
        exact absurd hlt (UInt32.not_lt.mpr (UInt32.le_of_lt this)) }

/-- **The second pass executes the auction at the target price**, although it
matches every buy order at its own limit. -/
theorem auction_executed_at_target (env : Platform) (lines : List OrderLine) :
    ExecutedAt lines (targetPrice (auctionOpen lines)) (processAuctionOrders env lines) := by
  have hopen := auctionOpen_inv lines
  have hrestore := restore_step env hopen
  obtain ⟨pre, post, hentries, hstop, hP⟩ := secondPass_rule env (targetPrice (auctionOpen lines))
    (PassInv lines (targetPrice (auctionOpen lines))) (passLevel_inv (firstPass_optimal hopen)) _
    (hrestore.bookInv hopen.toBookInv) (List.nil_append _).symm rfl (restoreQty_inv lines)
  exact hP.executedAt (EngineRun.bookInv (auction_run env lines) bookInv_default) hentries hstop

end LinuxProgram.PrestoLabs
