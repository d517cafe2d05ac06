import LinuxProgram.PrestoLabs.AuctionCalls
import LinuxProgram.PrestoLabs.TradePrices

/-!
# When the traded volumes are exact

`Account::update` adds `qty*price/SCALIANG_FACTOR` to a `double`.  Quantity and price are
32-bit words, so the product wraps before it is converted, and what is booked then is less than
what was traded, by a multiple of `2 ^ 32` thousandths.

* `VolumesExact` — the volumes are the sums of `crossQty * price / 1000`.
* `ProductFits` — the two orders of a call of `OrderEntry::match` trade for less than
  `2 ^ 32`.
* `volumes_exact_iff` — the volumes of a run are exact exactly when the product fits in
  every call: a product that wraps is booked as less, on either side, and no other trade
  makes up for it.
* `LinesFit`, `volumesExact_of_lines` — a condition that can be read off the order file: no
  buyer and no seller that accept each other's price could trade for `2 ^ 32` at the buyer's.
-/

namespace LinuxProgram.PrestoLabs

open Lib

variable {env : Platform} {w : World}

/-- What a trade is worth, in units of price times quantity. -/
def ReportEntry.product (r : ReportEntry) : ℕ := r.mCrossQty.toNat * r.mCrossPrice.toNat

/-- The exact value of the trade of a report. -/
def ReportEntry.exactValue (r : ReportEntry) : ℚ := (r.product : ℚ) / 1000

/-- **Every volume is exact**, for every party. -/
def VolumesExact (x : Exchange) : Prop := ∀ s party,
  (x.account party).sideVolume s
    = tradedSum (ReportEntry.isParty s party) ReportEntry.exactValue x.reports

/-- **The product fits**: what the two orders of the call can trade, at the price of the
resting order. -/
def MatchCall.ProductFits (c : MatchCall) : Prop :=
  min (c.before.mem c.incoming).leaves (c.before.mem c.resting).leaves
    * (c.before.mem c.resting).price.toNat < 2 ^ 32

/-! ### One trade -/

theorem ReportEntry.bookedValue_eq (r : ReportEntry) :
    r.bookedValue = ((r.product % 2 ^ 32 : ℕ) : ℚ) / 1000 := by
  rw [bookedValue, product, UInt32.toNat_mul]

theorem ReportEntry.bookedValue_le (r : ReportEntry) : r.bookedValue ≤ r.exactValue := by
  rw [bookedValue_eq, exactValue]
  have hle : ((r.product % 2 ^ 32 : ℕ) : ℚ) ≤ (r.product : ℚ) := by
    exact_mod_cast Nat.mod_le _ _
  gcongr

theorem ReportEntry.bookedValue_eq_exact {r : ReportEntry} (h : r.product < 2 ^ 32) :
    r.bookedValue = r.exactValue := by
  rw [bookedValue_eq, exactValue, Nat.mod_eq_of_lt h]

theorem ReportEntry.bookedValue_lt {r : ReportEntry} (h : ¬ r.product < 2 ^ 32) :
    r.bookedValue < r.exactValue := by
  rw [bookedValue_eq, exactValue]
  have hmod : r.product % 2 ^ 32 < 2 ^ 32 := Nat.mod_lt _ (by decide)
  have hlt : ((r.product % 2 ^ 32 : ℕ) : ℚ) < (r.product : ℚ) := by
    exact_mod_cast hmod.trans_le (Nat.le_of_not_lt h)
  gcongr

/-- A product fits in the call exactly when it fits in the report. -/
theorem ReportOf.fits_iff {r : ReportEntry} {c : MatchCall} (h : ReportOf r c) :
    r.product < 2 ^ 32 ↔ c.ProductFits := by
  rw [ReportEntry.product, h.crossQty, h.crossPrice, MatchCall.ProductFits]

/-! ### A run -/

/-- The sum of the trades of a party, as booked, is exact only if every one of them is. -/
theorem tradedSum_eq_iff {φ : ReportEntry → Bool} {reports : List ReportEntry} :
    tradedSum φ ReportEntry.bookedValue reports = tradedSum φ ReportEntry.exactValue reports ↔
      ∀ r ∈ reports, φ r = true → r.product < 2 ^ 32 := by
  constructor
  · intro h r hr hφ
    by_contra hwrap
    refine (List.sum_lt_sum _ _ (fun x _ => x.bookedValue_le) ⟨r, ?_, ?_⟩).ne h
    · exact List.mem_filter.mpr ⟨hr, hφ⟩
    · exact ReportEntry.bookedValue_lt hwrap
  · intro h
    refine congrArg List.sum (List.map_congr_left fun r hr => ?_)
    obtain ⟨hr, hφ⟩ := List.mem_filter.mp hr
    exact ReportEntry.bookedValue_eq_exact (h r hr hφ)

/-- Every trade has a buyer, so every trade is in the volume of some party. -/
theorem Booked.volumesExact_iff {x : Exchange} (h : Booked x) :
    VolumesExact x ↔ ∀ r ∈ x.reports, r.product < 2 ^ 32 := by
  constructor
  · intro hexact r hr
    have hbuyer := (h .BUY (r.onSide .BUY).party).symm.trans (hexact .BUY (r.onSide .BUY).party)
    exact tradedSum_eq_iff.mp hbuyer r hr (by simp [ReportEntry.isParty])
  · intro hfits s party
    rw [h s party]
    exact tradedSum_eq_iff.mpr fun r hr _ => hfits r hr

theorem EngineRun.volumesExact_iff (h : EngineRun env default w) :
    VolumesExact w.toExchange ↔ ∀ c ∈ w.calls, c.ProductFits := by
  obtain ⟨htrades, hbooked⟩ := EngineRun.withinLimits h
  rw [hbooked.volumesExact_iff]
  generalize w.reports = reports at htrades
  generalize w.calls = calls at htrades
  induction htrades with
  | nil => exact ⟨fun _ => List.forall_mem_nil _, fun _ => List.forall_mem_nil _⟩
  | cons hrc _ ih => rw [List.forall_mem_cons, List.forall_mem_cons, ih, hrc.reported.fits_iff]

/-! ### In terms of the order file -/

/-- An order that has quantity left comes from one of the lines, and has no more left than its line
asks for. -/
def FromLines (lines : List OrderLine) (e : OrderEntry) : Prop :=
  e.leaves ≠ 0 → e.toOrderLine ∈ lines ∧ e.leaves ≤ e.qty.toNat

/-- **All orders come from the lines**, those in memory and those that every call on the way has
found there. -/
structure Stocked (lines : List OrderLine) (w : World) : Prop where
  mem : ∀ p, FromLines lines (w.mem p)
  calls : ∀ c ∈ w.calls, ∀ p, FromLines lines (c.before.mem p)

variable {lines : List OrderLine} {s : Side} {pIncoming : ℕ} {w' : World}

theorem FromLines.append {e : OrderEntry} (h : FromLines lines e) (o : OrderLine) :
    FromLines (lines ++ [o]) e := fun hne =>
  ⟨List.mem_append_left _ (h hne).1, (h hne).2⟩

theorem Stocked.append (h : Stocked lines w) (o : OrderLine) : Stocked (lines ++ [o]) w :=
  ⟨fun p => (h.mem p).append o, fun c hc p => (h.calls c hc p).append o⟩

/-- A trade takes quantity away. -/
theorem FromLines.traded (h : ∀ p, FromLines lines (w.mem p)) (r pIncoming p : ℕ) :
    FromLines lines (tradedMem w r pIncoming p) := by
  intro hne
  have hle : (tradedMem w r pIncoming p).leaves ≤ (w.mem p).leaves := tradedMem_leaves_le p
  have hline := tradedMem_toOrderLine w r pIncoming p
  obtain ⟨hmem, hqty⟩ := h p (by omega)
  rw [hline]
  exact ⟨hmem, hle.trans hqty⟩

/-- **A step of a matching run** brings no orders in. -/
theorem MatchStep.stocked (h : MatchStep env s pIncoming w w') (hS : Stocked lines w) :
    Stocked lines w' := by
  cases h with
  | sort h => exact ⟨hS.mem, hS.calls⟩
  | @fill pre key g post r os h hg hne hdead hkey hprice =>
      refine ⟨fun p => ?_, fun c hc p => ?_⟩
      · rw [fillStep_mem hne]
        exact FromLines.traded hS.mem r pIncoming p
      · rw [fillStep_calls hne] at hc
        rcases List.mem_append.mp hc with hc | hc
        · exact hS.calls c hc p
        · rw [List.mem_singleton.mp hc]
          exact hS.mem p
  | drop h hzero => exact ⟨hS.mem, hS.calls⟩
  | readEnd => exact ⟨hS.mem, hS.calls⟩

theorem MatchSteps.stocked (h : MatchSteps env s pIncoming w w') (hS : Stocked lines w) :
    Stocked lines w' := by
  induction h with
  | refl => exact hS
  | tail _ hstep ih => exact hstep.stocked ih

/-- An order is constructed from the next line. -/
theorem Stocked.construct {st : Session} (h : Stocked lines st.toWorld) (o : OrderLine) :
    Stocked (lines ++ [o]) (st.construct o) := by
  refine ⟨fun p => ?_, (h.append o).calls⟩
  by_cases hp : p = st.index
  · have hself : (st.construct o).mem p = OrderEntry.ofLine st.lineNo o := by
      rw [hp]
      exact Function.update_self ..
    rw [hself]
    exact fun _ => ⟨List.mem_append_right _ (List.mem_singleton_self o), le_rfl⟩
  · have hother : (st.construct o).mem p = st.mem p := Function.update_of_ne hp _ _
    rw [hother]
    exact (h.mem p).append o

theorem stocked_default : Stocked [] (default : World) where
  mem _ hne := absurd rfl hne
  calls c hc := by simp [show (default : World).calls = [] from rfl] at hc

theorem normal_stocked (env : Platform) (lines : List OrderLine) :
    Stocked lines (processNormalOrders env lines).toWorld := by
  induction lines using List.reverseRecOn with
  | nil => exact stocked_default
  | append_singleton lines o ih =>
      have hI := normal_sessionInv env lines
      have hmatched : ∀ {full : Bool} {w : World},
          matchOrder env o.side.opposite (processNormalOrders env lines).index
            ((processNormalOrders env lines).construct o) = (full, w) →
          Stocked (lines ++ [o]) w := by
        intro full w hmatch
        have hrun := (normalMatch_run env hI o).steps
        rw [hmatch] at hrun
        exact MatchSteps.stocked hrun (ih.construct o)
      rw [processNormalOrders, List.foldl_append]
      obtain ⟨w, index, hcase, heq⟩ := normalLine_cases env hI o
      have hw : Stocked (lines ++ [o]) w := by
        cases hcase with
        | zero _ => exact ih.construct o
        | filled _ hmatch => exact hmatched hmatch
        | rests _ hmatch => exact ⟨(hmatched hmatch).mem, (hmatched hmatch).calls⟩
      have hfold : [o].foldl (normalLine env) (lines.foldl (normalLine env) default) =
          normalLine env (processNormalOrders env lines) o := rfl
      rw [hfold, heq]
      exact hw

theorem auctionRead_stocked (lines : List OrderLine) :
    Stocked lines (auctionRead lines).toWorld := by
  induction lines using List.reverseRecOn with
  | nil => exact stocked_default
  | append_singleton lines o ih =>
      have hw := ih.construct o
      rw [auctionRead, List.foldl_append]
      show Stocked _ (auctionLine (auctionRead lines) o).toWorld
      rw [auctionLine]
      split
      · exact ⟨hw.mem, hw.calls⟩
      · exact ⟨hw.mem, hw.calls⟩

theorem auction_stocked (env : Platform) (lines : List OrderLine) :
    Stocked lines (processAuctionOrders env lines) := by
  have hread := auctionRead_stocked lines
  exact (auctionCalls_rule env lines (Stocked lines) ⟨hread.mem, hread.calls⟩
    (fun _ _ hS => ⟨hS.mem, hS.calls⟩)
    (fun hcall hS => MatchSteps.stocked (hcall.run env).steps hS)).2

/-- **No two lines trade for too much**: a buyer and a seller that accept each other's price could
trade for less than `2 ^ 32`, at the price of the buyer. -/
def LinesFit (lines : List OrderLine) : Prop :=
  ∀ b ∈ lines, ∀ o ∈ lines, b.side = .BUY → o.side = .SELL → o.price ≤ b.price →
    min b.qty.toNat o.qty.toNat * b.price.toNat < 2 ^ 32

/-- The two orders of a call, in terms of their sides. -/
theorem MatchCall.productFits_of_sides {c : MatchCall}
    (h : min (c.order .BUY).leaves (c.order .SELL).leaves *
      (c.before.mem c.resting).price.toNat < 2 ^ 32) : c.ProductFits := by
  rw [ProductFits]
  rw [order, order] at h
  cases hside : c.side with
  | BUY =>
      rw [hside, if_pos rfl, if_neg Side.noConfusion] at h
      rwa [Nat.min_comm]
  | SELL =>
      rw [hside, if_pos rfl, if_neg Side.noConfusion] at h
      exact h

/-- **The product fits in every call** between lines that do not trade for too much. -/
theorem RespectsLimits.productFits {r : ReportEntry} {c : MatchCall} (h : RespectsLimits r c)
    (hlines : ∀ p, FromLines lines (c.before.mem p)) (hfit : LinesFit lines) : c.ProductFits := by
  refine MatchCall.productFits_of_sides ?_
  by_cases hzero : (c.order .BUY).leaves = 0 ∨ (c.order .SELL).leaves = 0
  · have hmin : min (c.order .BUY).leaves (c.order .SELL).leaves = 0 := by omega
    rw [hmin, Nat.zero_mul]
    positivity
  · rw [not_or] at hzero
    have hbuy : FromLines lines (c.order .BUY) := hlines _
    have hsell : FromLines lines (c.order .SELL) := hlines _
    obtain ⟨hb, hbqty⟩ := hbuy hzero.1
    obtain ⟨ho, hoqty⟩ := hsell hzero.2
    have hprices : (c.order .SELL).price ≤ (c.order .BUY).price :=
      UInt32.le_trans h.seller h.buyer
    have hprice : (c.before.mem c.resting).price.toNat ≤ (c.order .BUY).price.toNat := by
      rw [← h.reported.crossPrice]
      exact UInt32.le_iff_toNat_le.mp h.buyer
    calc min (c.order .BUY).leaves (c.order .SELL).leaves * (c.before.mem c.resting).price.toNat
        ≤ min (c.order .BUY).qty.toNat (c.order .SELL).qty.toNat * (c.order .BUY).price.toNat :=
          Nat.mul_le_mul (by omega) hprice
      _ < 2 ^ 32 := hfit _ hb _ ho (h.sides .BUY) (h.sides .SELL) hprices

theorem EngineRun.volumesExact_of_lines (h : EngineRun env default w) (hS : Stocked lines w)
    (hfit : LinesFit lines) : VolumesExact w.toExchange := by
  refine (EngineRun.volumesExact_iff h).mpr fun c hc => ?_
  have htrades := (EngineRun.withinLimits h).trades
  have hcalls := hS.calls c hc
  generalize w.reports = reports at htrades
  generalize w.calls = calls at htrades hc
  induction htrades with
  | nil => cases hc
  | cons hrc _ ih =>
      rcases List.mem_cons.mp hc with rfl | hc
      · exact hrc.productFits hcalls hfit
      · exact ih hc

/-- **A condition on the order file**: if no two of its lines can trade for too much, the volumes
are exact under either rule. -/
theorem volumesExact_of_lines (env : Platform) (hfit : LinesFit lines) :
    VolumesExact (processNormalOrders env lines).toExchange ∧
      VolumesExact (processAuctionOrders env lines).toExchange :=
  ⟨EngineRun.volumesExact_of_lines (normal_run env lines) (normal_stocked env lines) hfit,
    EngineRun.volumesExact_of_lines (auction_run env lines) (auction_stocked env lines) hfit⟩

/-! ### Both rules -/

/-- **The volumes are exact exactly when no product wraps**, under either rule.  A product that
wraps books less than was traded, so that no other trade can make up for it. -/
theorem volumes_exact_iff (env : Platform) (lines : List OrderLine) :
    (VolumesExact (processNormalOrders env lines).toExchange ↔
      ∀ c ∈ (processNormalOrders env lines).calls, c.ProductFits) ∧
    (VolumesExact (processAuctionOrders env lines).toExchange ↔
      ∀ c ∈ (processAuctionOrders env lines).calls, c.ProductFits) :=
  ⟨EngineRun.volumesExact_iff (normal_run env lines),
    EngineRun.volumesExact_iff (auction_run env lines)⟩

/-- Selling and buying 100000 at the price 50, which the file scales to 50000: the volume
booked is 705032.704. -/
theorem volume_wraps : ¬ ∀ env lines, VolumesExact (processNormalOrders env lines).toExchange := by
  intro h
  let line (party : String) (side : Side) : OrderLine :=
    { id := "1", party := party, price := 50000, qty := 100000, sequence := 1, side := side }
  have hexact := h default [line "A" .SELL, line "B" .BUY] .BUY "B"
  have hbooked : ((processNormalOrders default [line "A" .SELL, line "B" .BUY]).account
      "B").sideVolume .BUY = 705032704 / 1000 := by
    decide +kernel
  rw [hbooked] at hexact
  have hvalue : tradedSum (ReportEntry.isParty .BUY "B") ReportEntry.exactValue
      (processNormalOrders default [line "A" .SELL, line "B" .BUY]).reports
      = 5000000000 / 1000 := by
    decide +kernel
  rw [hvalue] at hexact
  norm_num at hexact

end LinuxProgram.PrestoLabs
