import LinuxProgram.PrestoLabs.Priority
import LinuxProgram.PrestoLabs.Balance

/-!
# At which price a trade is made and booked

`OrderEntry::match` trades at the price of the resting order, reports that price and
books it on both accounts.  The limit of the incoming order is tested two loops further
out, against the key of the level, by the comparator of the book.

* `RespectsLimits` — the price of a trade is the resting order's, no higher than the
  buyer's limit and no lower than the seller's; the assertion that ends
  `OrderEntry::match` is the part of it that concerns the incoming order.
* `Booked` — the volumes of the accounts are the trades they took part in, each at the
  price of its report.
* `trades_withinLimits` — both hold of every trade, under either rule.
-/

namespace LinuxProgram.PrestoLabs

open Lib

variable {env : Platform} {w w' : World}

/-! ### The limits -/

namespace MatchCall

/-- The order on side `s` of the trade. -/
def order (c : MatchCall) (s : Side) : OrderEntry :=
  c.before.mem (if s = c.side then c.resting else c.incoming)

/-- The state in which the call returns. -/
def after (c : MatchCall) : World :=
  (matchEntry c.side c.resting c.incoming { c.before with calls := [], endReads := 0 }).2

/-- The assertion at the end of `OrderEntry::match<BUY>` and of `OrderEntry::match<SELL>`. -/
def Asserts (c : MatchCall) : Prop :=
  match c.side with
  | .BUY => (c.after.mem c.incoming).getPrice ≤ (c.after.mem c.resting).price
  | .SELL => (c.after.mem c.incoming).getPrice ≥ (c.after.mem c.resting).price

end MatchCall

/-- **The trade of the call `c`, reported as `r`, respects both limits.** -/
structure RespectsLimits (r : ReportEntry) (c : MatchCall) : Prop where
  reported : ReportOf r c
  sides : ∀ s, (c.order s).side = s
  buyer : r.mCrossPrice ≤ (c.order .BUY).price
  seller : (c.order .SELL).price ≤ r.mCrossPrice
  asserted : c.Asserts

/-- The comparator of a book, read as limits: the price `p` of side `s` is not worse than
`limit` accepts. -/
theorem cmp_eq_false_iff {s : Side} {limit p : Price} :
    cmp s limit p = false ↔ match s with | .BUY => limit ≤ p | .SELL => p ≤ limit := by
  cases s <;> simp [cmp, cmpBuy, cmpSell]

/-- A fill is made within the limits: the resting order has the price of its level, and
the incoming order accepts that. -/
theorem FillCall.respectsLimits {c : MatchCall} (h : FillCall env w c) (hI : BookInv w) :
    RespectsLimits (c.report w) c := by
  obtain ⟨pre, key, g, post, os, hs, hg, -, -, hlimit⟩ := h.level
  obtain ⟨hside, hprice⟩ := hI.own _ _ hs.mem c.resting (by simp [hg])
  have hbefore := h.before
  have hinc := h.side
  dsimp only at hprice
  rw [← hprice, cmp_eq_false_iff] at hlimit
  obtain ⟨s, resting, incoming, before⟩ := c
  obtain rfl : before = w.toExchange := hbefore
  have hafter : ∀ p, ((MatchCall.mk s resting incoming w.toExchange).after.mem p).price
      = (w.mem p).price := by
    intro p
    have hmem := matchEntry_mem (w := { w.toExchange with calls := [], endReads := 0 }) s h.ne
    rw [MatchCall.after, hmem]
    exact congrArg OrderLine.price (tradedMem_toOrderLine _ _ _ p)
  cases s with
  | BUY =>
      exact {
        reported := h.reportOf
        sides := fun s => by cases s <;> [exact hside; exact hinc]
        buyer := UInt32.le_refl _
        seller := hlimit
        asserted := by
          change (_ : OrderEntry).price ≤ (_ : OrderEntry).price
          rw [hafter, hafter]
          exact hlimit }
  | SELL =>
      exact {
        reported := h.reportOf
        sides := fun s => by cases s <;> [exact hinc; exact hside]
        buyer := hlimit
        seller := UInt32.le_refl _
        asserted := by
          change (_ : OrderEntry).price ≤ (_ : OrderEntry).price
          rw [hafter, hafter]
          exact hlimit }

/-! ### The volumes -/

/-- The volume an account holds on one side. -/
def Account.sideVolume : Side → Account → ℚ
  | .BUY => longVolume
  | .SELL => shortVolume

namespace Account

@[simp] theorem sideVolume_update_self (s : Side) (a : Account) (q : Quantity) (p : Price) :
    sideVolume s (update s a q p) = sideVolume s a + ((q * p).toNat : ℚ) / 1000 := by
  cases s <;> rfl

theorem sideVolume_update_of_ne {s s' : Side} (h : s ≠ s') (a : Account) (q : Quantity)
    (p : Price) : sideVolume s (update s' a q p) = sideVolume s a := by
  cases s <;> cases s' <;> first | rfl | exact absurd rfl h

end Account

/-- What `Account::update` adds for the trade of a report: the 32-bit product. -/
def ReportEntry.bookedValue (r : ReportEntry) : ℚ :=
  ((r.mCrossQty * r.mCrossPrice).toNat : ℚ) / 1000

/-- The sum of `value` over the reports that satisfy `φ`. -/
def tradedSum (φ : ReportEntry → Bool) (value : ReportEntry → ℚ) (reports : List ReportEntry) : ℚ :=
  ((reports.filter φ).map value).sum

theorem tradedSum_concat (φ : ReportEntry → Bool) (value : ReportEntry → ℚ)
    (reports : List ReportEntry) (r : ReportEntry) :
    tradedSum φ value (reports ++ [r])
      = tradedSum φ value reports + if φ r then value r else 0 := by
  simp only [tradedSum, List.filter_append, List.map_append, List.sum_append]
  by_cases h : φ r = true
  · simp [h]
  · simp [h]

/-- The report has the order of `party` on side `s`. -/
def ReportEntry.isParty (s : Side) (party : String) (r : ReportEntry) : Bool :=
  (r.onSide s).party = party

/-- **Every account is booked at the reported prices.** -/
def Booked (x : Exchange) : Prop := ∀ s party,
  (x.account party).sideVolume s
    = tradedSum (ReportEntry.isParty s party) ReportEntry.bookedValue x.reports

theorem sideVolume_updateAccount (party party' : String) (s s' : Side) (q : Quantity)
    (price : Price) :
    ((w.updateAccount party s q price).account party').sideVolume s'
      = (w.account party').sideVolume s' +
        if s' = s ∧ party' = party then ((q * price).toNat : ℚ) / 1000 else 0 := by
  rw [account_updateAccount]
  by_cases hp : party' = party
  · subst hp
    by_cases hs : s' = s
    · subst hs
      simp
    · simp [hs, Account.sideVolume_update_of_ne hs]
  · simp [hp]

/-- On side `s` the resting party is booked, on the other one the incoming party, both at
the price of the resting order. -/
theorem matchEntry_sideVolume {s : Side} {pThis pIncoming : ℕ} (h : pThis ≠ pIncoming) (s' : Side)
    (party : String) :
    ((matchEntry s pThis pIncoming w).2.account party).sideVolume s'
      = (w.account party).sideVolume s' +
        if (w.mem (if s' = s then pThis else pIncoming)).party = party
          then ((crossed w pThis pIncoming * (w.mem pThis).price).toNat : ℚ) / 1000 else 0 := by
  rw [Exchange.account, matchEntry_accounts h]
  refine (sideVolume_updateAccount ..).trans ?_
  rw [sideVolume_updateAccount]
  cases s <;> cases s' <;> simp [Side.opposite, eq_comm]

/-- The order on side `s` of the report of a fill. -/
theorem FillCall.onSide {c : MatchCall} (h : FillCall env w c) (s : Side) :
    ((c.report w).onSide s).party
      = (w.mem (if s = c.side then c.resting else c.incoming)).party := by
  have honSide : (c.report w).onSide s
      = tradedMem w c.resting c.incoming (if s = c.side then c.resting else c.incoming) :=
    crossReport_onSide h.side s
  rw [honSide]
  exact congrArg OrderLine.party (tradedMem_toOrderLine ..)

theorem EngineStep.booked (h : EngineStep env w w') (hB : Booked w.toExchange) :
    Booked w'.toExchange := by
  intro s party
  rcases h.calls_cases with ⟨-, hr, ha⟩ | ⟨c, hfill, -, hr, ha⟩
  · rw [Exchange.account, ha, hr]
    exact hB s party
  · have hvolume := matchEntry_sideVolume (w := w) (s := c.side) hfill.ne s party
    rw [Exchange.account, ha, hr, tradedSum_concat, ← hB s party]
    refine hvolume.trans ?_
    simp only [ReportEntry.isParty, hfill.onSide s, decide_eq_true_eq]
    rfl

/-! ### Every trade of both rules -/

/-- **The trades of a run are made and booked at prices both sides accept.** -/
structure TradesWithinLimits (w : World) : Prop where
  trades : List.Forall₂ RespectsLimits w.reports w.calls
  booked : Booked w.toExchange

theorem EngineRun.withinLimits (h : EngineRun env default w) : TradesWithinLimits w := by
  refine EngineRun.rule (I := TradesWithinLimits) ⟨.nil, fun s party => by cases s <;> rfl⟩ ?_ h
  intro w w' hI hstep ih
  refine ⟨?_, hstep.booked ih.booked⟩
  rcases hstep.calls_cases with ⟨hc, hr, -⟩ | ⟨c, hfill, hc, hr, -⟩
  · rw [hc, hr]
    exact ih.trades
  · rw [hc, hr]
    exact List.rel_append ih.trades (.cons (hfill.respectsLimits hI) .nil)

/-- **Trades respect both limits** under either rule: the price of a trade is that of the order that
rests, and the other one was let in only because it accepts it. -/
theorem trades_withinLimits (env : Platform) (lines : List OrderLine) :
    TradesWithinLimits (processNormalOrders env lines).toWorld ∧
      TradesWithinLimits (processAuctionOrders env lines) :=
  ⟨EngineRun.withinLimits (normal_run env lines), EngineRun.withinLimits (auction_run env lines)⟩

end LinuxProgram.PrestoLabs
