import LinuxProgram.PrestoLabs.Remainder
import LinuxProgram.PrestoLabs.ReportBuffer
import LinuxProgram.PrestoLabs.LevelTotals

/-!
# Orders and trades without quantity

`OrderGroup::addOrder` asserts that the order it is given has some quantity left.
`ProcessNormalOrders` skips a line without quantity (its "zero order check");
`ProcessAuctionOrders` has no such check.

* `NormalNoEmpty`, `AuctionNoEmpty` — no order without quantity is added to a book, and
  no trade without quantity is reported.
* A trade crosses what is left on one of its two orders.  Orders that are filled leave
  their level, and a call ends with the trade that fills the incoming order, so with
  quantity on both sides at the start every trade has a quantity (`matchOrder_realTrades`).
* `noEmptyFills_iff` — the normal rule keeps the promise on every list of lines, the
  auction exactly on those without a line of quantity zero.
-/

namespace LinuxProgram.PrestoLabs

open Lib

variable {env : Platform} {s : Side} {pIncoming : ℕ} {w w' : World}

/-! ### The promise -/

/-- No report has the quantity zero. -/
def RealTrades (w : World) : Prop := ∀ r ∈ w.reports, r.mCrossQty ≠ 0

/-- The order a line of `ProcessNormalOrders` gives to `addOrder`, as it is then. -/
def normalAddition (env : Platform) (st : Session) (o : OrderLine) : Option OrderEntry :=
  let w := st.construct o
  if (w.mem st.index).empty then none
  else
    let matched :=
      if (w.mem st.index).isBuy then matchOrder env .SELL st.index w
      else matchOrder env .BUY st.index w
    if matched.1 then none else some (matched.2.mem st.index)

/-- The order a line of `ProcessAuctionOrders` gives to `addOrder`. -/
def auctionAddition (st : Session) (o : OrderLine) : OrderEntry := (st.construct o).mem st.index

/-- **No empty fill under the normal rule.** -/
structure NormalNoEmpty (env : Platform) (lines : List OrderLine) : Prop where
  added : ∀ n o, lines[n]? = some o →
    ∀ e ∈ normalAddition env (processNormalOrders env (lines.take n)) o, e.getCurrentQty ≠ 0
  traded : RealTrades (processNormalOrders env lines).toWorld

/-- **No empty fill in the auction**: every order that the reading loop gives to `addOrder` has some
quantity, and so has every trade that is reported. -/
structure AuctionNoEmpty (env : Platform) (lines : List OrderLine) : Prop where
  added : ∀ n o, lines[n]? = some o →
    (auctionAddition (auctionRead (lines.take n)) o).getCurrentQty ≠ 0
  traded : RealTrades (processAuctionOrders env lines)

theorem leaves_ne_zero_iff {e : OrderEntry} : e.leaves ≠ 0 ↔ e.getCurrentQty ≠ 0 := by
  rw [OrderEntry.leaves, OrderEntry.getCurrentQty, ne_eq, ne_eq, ← UInt32.toNat_inj]
  rfl

/-! ### One call -/

/-- Every order of the book has some quantity left. -/
def OpenOrders (s : Side) (w : World) : Prop :=
  ∀ e ∈ (w.book s).entries, ∀ p ∈ e.2.mOrders, (w.mem p).leaves ≠ 0

theorem MatchStep.openOrders (h : MatchStep env s pIncoming w w') (hI : BookInv w)
    (hside : (w.mem pIncoming).side = s.opposite) (hO : OpenOrders s w) : OpenOrders s w' := by
  intro e he p hp
  cases h.levelStep hI hside e he with
  | kept he hmem =>
      rw [hmem p hp]
      exact hO e he p hp
  | sorted hg hmem hperm =>
      rw [hmem]
      exact hO _ hg p (hperm.subset hp)
  | @filled key g r os hg hhead hr hin hne hmem =>
      rw [hmem]
      dsimp only at hp
      have hos : ∀ q ∈ os, (tradedMem w r pIncoming q).leaves ≠ 0 := fun q hq => by
        rw [tradedMem_of_ne (ne_of_mem_of_not_mem hq hr) (ne_of_mem_of_not_mem hq hin)]
        exact hO _ hg q (by simp [hhead, hq])
      split at hp
      · exact hos p hp
      · rename_i hopen
        rcases List.mem_cons.mp hp with rfl | hp
        · exact hopen
        · exact hos p hp

theorem MatchSteps.openOrders (h : MatchSteps env s pIncoming w w') (hI : BookInv w)
    (hside : (w.mem pIncoming).side = s.opposite) (hO : OpenOrders s w) : OpenOrders s w' := by
  induction h with
  | refl => exact hO
  | tail hsteps hstep ih =>
      exact hstep.openOrders (MatchSteps.bookInv hsteps hside hI)
        ((MatchSteps.side_eq hsteps pIncoming).trans hside) ih

/-- **The inner loop**: it trades only while the incoming order has quantity left. -/
theorem matchGroupLoop_realTrades {pre post : List (Price × OrderGroup)} {key : Price} :
    ∀ (n : ℕ) {w : World} {g : OrderGroup}, (w.book s).Split pre key g post →
      g.mOrders.length = n → g.mOrders.Nodup → pIncoming ∉ g.mOrders →
      (∀ p ∈ g.mOrders, (w.mem p).leaves ≠ 0) → (w.mem pIncoming).leaves ≠ 0 → RealTrades w →
      RealTrades (matchGroupLoop s pre.length pIncoming n 0 w).2 := by
  intro n
  induction n with
  | zero => exact fun _ _ _ _ _ _ hR => hR
  | succ n ih =>
      intro w g h hlen hnd hnotin hopen hleaves hR
      obtain ⟨r, os, hg⟩ := List.exists_cons_of_length_eq_add_one hlen
      rw [hg] at hnd hnotin hopen hlen
      rw [List.nodup_cons] at hnd
      rw [List.forall_mem_cons] at hopen
      have hne : r ≠ pIncoming := fun he => hnotin (he ▸ List.mem_cons_self)
      have hfilled : RealTrades (fillStep s pre.length r pIncoming w) := by
        rw [RealTrades, fillStep_reports hne, List.forall_mem_append,
          List.forall_mem_singleton]
        refine ⟨hR, fun hzero => ?_⟩
        have hqty := crossed_toNat w r pIncoming
        rw [show crossed w r pIncoming = 0 from hzero] at hqty
        have := hopen.1
        simp at hqty
        omega
      have hsplit := fillStep_split (s := s) h hg hne
      rw [matchGroupLoop_cons h hg hne]
      by_cases he : ((fillStep s pre.length r pIncoming w).mem pIncoming).leaves = 0
      · rw [if_pos he]
        exact hfilled
      · rw [if_neg he]
        have hz : (tradedMem w r pIncoming r).leaves = 0 := by
          rw [fillStep_mem hne] at he
          exact (tradedMem_empty hne).resolve_right he
        rw [if_pos hz] at hsplit
        refine ih hsplit (by simpa using hlen) hnd.2
          (fun hp => hnotin (List.mem_cons_of_mem _ hp)) (fun p hp => ?_) he hfilled
        rw [fillStep_mem hne, tradedMem_of_ne (ne_of_mem_of_not_mem hp hnd.1)
          (ne_of_mem_of_not_mem (List.mem_cons_of_mem _ hp) hnotin)]
        exact hopen.2 p hp

/-- **One pass** of the outer loop. -/
theorem LoopPass.realTrades {pre pre' post : List (Price × OrderGroup)} {key : Price}
    {g : OrderGroup} {filled : Bool}
    (h : LoopPass env s pIncoming pre key g post w filled pre' w') (hO : OpenOrders s w)
    (hleaves : (w.mem pIncoming).leaves ≠ 0) (hR : RealTrades w) : RealTrades w' := by
  have hlevel : (w.book s).Split pre key g post := h.head.levels
  have hsplit := sortGroup_split env hlevel
  have hperm := sortOrders_perm env w.mem g.mOrders
  have hnd := h.head.nodup
  rw [ptrs_of_split hlevel] at hnd
  have hlen : (((sortGroup env s pre.length w).group? s pre.length).map fun g =>
      g.mOrders.length).getD 0 = (sortOrders env w.mem g.mOrders).length := by
    simp [World.group?_of_split _ s hsplit]
  have hmatched : RealTrades (matchGroup env s pre.length pIncoming w).2 :=
    matchGroupLoop_realTrades _ hsplit hlen.symm
      (hperm.nodup_iff.mpr (List.nodup_append.mp (List.nodup_append.mp hnd).2.1).1)
      (fun hp => h.notin (hperm.subset hp))
      (fun p hp => hO (key, g) hlevel.mem p (hperm.subset hp)) hleaves hR
  -- erasing the level writes no report
  have hreports : w'.reports = (matchGroup env s pre.length pIncoming w).2.reports := by
    have hw' : (levelPass env s pIncoming pre.length w).2.2 = w' := by rw [h.eq]
    rw [← hw', levelPass]
    dsimp only
    split <;> rfl
  rw [RealTrades, hreports]
  exact hmatched

variable (env) in
/-- **A call of `Book::match`** for an order with quantity left, on a book of such
orders. -/
theorem matchOrder_realTrades (hI : BookInv w) (hside : (w.mem pIncoming).side = s.opposite)
    (hO : OpenOrders s w) (hleaves : (w.mem pIncoming).leaves ≠ 0) (hR : RealTrades w) :
    RealTrades (matchOrder env s pIncoming w).2 := by
  unfold matchOrder
  cases hlevels : (w.book s).entries with
  | nil => exact hR
  | cons e rest =>
      obtain ⟨best, g⟩ := e
      dsimp only
      split
      · exact hR
      · rename_i hcmp
        have hhead := loopHead_first hlevels (hI.nodup s) (hI.notMem_ptrs hside)
          (Bool.eq_false_iff.mpr hcmp)
        refine matchLevels_rule env s pIncoming
          (fun _ w r => BookInv w → (w.mem pIncoming).side = s.opposite → OpenOrders s w →
            (w.mem pIncoming).leaves ≠ 0 → RealTrades w → RealTrades r.2)
          (fun h _ _ hO hl hR => h.realTrades hO hl hR)
          (fun h _ _ hO hl hR => h.realTrades hO hl hR)
          (fun h _ _ _ hO hl hR => h.realTrades hO hl hR)
          (fun h _ ih hI hside hO hl hR => ?_) _ (List.cons_ne_nil _ _) hhead hI hside hO hleaves hR
        have hsteps := h.run.steps
        exact ih (MatchSteps.bookInv hsteps hside hI)
          ((MatchSteps.side_eq hsteps pIncoming).trans hside)
          (MatchSteps.openOrders hsteps hI hside hO) (h.run.unfilled rfl hl)
          (h.realTrades hO hl hR)

/-! ### The normal rule

A line without quantity is skipped, and so an order is matched with some quantity left, against
orders that have some left.  Both loops stop as soon as the incoming order is filled, and every
trade in between takes something. -/

section Normal

variable {lines : List OrderLine} {st : Session}

theorem LiveBooks.openOrders (h : LiveBooks w) (s : Side) : OpenOrders s w :=
  fun e he => (h s e he).2

/-- The two branches of `ProcessNormalOrders` are one. -/
theorem normalAddition_eq (h : SessionInv lines st) (o : OrderLine) :
    normalAddition env st o =
      if o.qty = 0 ∨ (matchOrder env o.side.opposite st.index (st.construct o)).1 = true then none
      else some ((matchOrder env o.side.opposite st.index (st.construct o)).2.mem st.index) := by
  have hempty : ((st.construct o).mem st.index).empty = true ↔ o.qty = 0 := by
    rw [h.construct_self o]
    simp [OrderEntry.empty, OrderEntry.ofLine]
  have hbuy : (((st.construct o).mem st.index).isBuy = true) ↔ o.side = .BUY := by
    rw [h.construct_self o, OrderEntry.isBuy, decide_eq_true_eq]
    rfl
  simp only [normalAddition, hempty, hbuy]
  by_cases hqty : o.qty = 0
  · rw [if_pos hqty, if_pos (.inl hqty)]
  · rw [if_neg hqty]
    cases hs : o.side
    · simp [hqty, Side.opposite]
    · simp [hqty, Side.opposite]

/-- **An order that comes to rest has quantity left.** -/
theorem NormalInv.addition (h : NormalInv lines st) (o : OrderLine) :
    ∀ e ∈ normalAddition env st o, e.getCurrentQty ≠ 0 := by
  intro e he
  rw [normalAddition_eq h.toSessionInv] at he
  split at he
  · cases he
  · rename_i hrests
    rw [not_or] at hrests
    obtain rfl := Option.some.inj he
    have hrun := normalMatch_run env h.toSessionInv o
    rw [← leaves_ne_zero_iff]
    exact fun hzero => hrests.2 (hrun.unfilled hzero (h.construct_leaves_ne o hrests.1))

theorem NormalInv.realTrades (h : NormalInv lines st) (o : OrderLine)
    (hR : RealTrades st.toWorld) : RealTrades (normalLine env st o).toWorld := by
  obtain ⟨w, index, hcase, heq⟩ := normalLine_cases env h.toSessionInv o
  rw [heq]
  have hmatched : ∀ {full w}, o.qty ≠ 0 →
      matchOrder env o.side.opposite st.index (st.construct o) = (full, w) → RealTrades w := by
    intro full w hqty hmatch
    have hreal := matchOrder_realTrades env (h.construct_bookInv o) (s := o.side.opposite)
      (by simp [h.construct_self o]) ((h.construct_live o).openOrders _)
      (h.construct_leaves_ne o hqty) hR
    rw [hmatch] at hreal
    exact hreal
  cases hcase with
  | zero hqty => exact hR
  | filled hqty hmatch => exact hmatched hqty hmatch
  | rests hqty hmatch =>
      have hreal := hmatched hqty hmatch
      exact hreal

theorem normal_realTrades (env : Platform) (lines : List OrderLine) :
    RealTrades (processNormalOrders env lines).toWorld := by
  induction lines using List.reverseRecOn with
  | nil => exact List.forall_mem_nil _
  | append_singleton lines o ih =>
      rw [processNormalOrders, List.foldl_append]
      exact (normal_inv env lines).realTrades o ih

end Normal

/-! ### The auction

The reading loop adds every line, also one without quantity, against what `addOrder` asserts.  If
there is no such line, the second pass starts with orders that all have something left, and a buy
order comes to its turn as it was read. -/

section Auction

variable {lines : List OrderLine}

/-- **The invariant of the second pass**, `buyOrders` being the buy orders it has still
to come to: every order that may still trade has quantity left. -/
structure PassOpen (buyOrders : List ℕ) (w : World) : Prop where
  sell : OpenOrders .SELL w
  buy : ∀ p ∈ buyOrders, (w.mem p).leaves ≠ 0
  traded : RealTrades w

/-- **One buy order** of the second pass. -/
theorem PassOpen.matchOrder {p : ℕ} {buyOrders : List ℕ} (h : PassOpen (p :: buyOrders) w)
    (hcall : BuyCall p w) (hnd : (p :: buyOrders).Nodup)
    (hside : ∀ q ∈ buyOrders, (w.mem q).side = .BUY) :
    PassOpen buyOrders (matchOrder env .SELL p w).2 where
  sell := MatchSteps.openOrders (hcall.run env).steps hcall.toBookInv hcall.buy h.sell
  buy q hq := by
    have hne : q ≠ p := ne_of_mem_of_not_mem hq (List.nodup_cons.mp hnd).1
    rw [MatchSteps.mem_of_notMem (hcall.run env).steps hne (hcall.notMem_ptrs (hside q hq))]
    exact h.buy q (List.mem_cons_of_mem _ hq)
  traded := matchOrder_realTrades env hcall.toBookInv hcall.buy h.sell
    (h.buy p List.mem_cons_self) h.traded

/-- **The inner loop**, with the buy orders of the levels to come. -/
theorem matchBuyOrders_open : ∀ {orders later : List ℕ} {w : World}, BookInv w →
    (orders ++ later).Nodup → (∀ q ∈ orders ++ later, (w.mem q).side = .BUY) →
    PassOpen (orders ++ later) w → PassOpen later (matchBuyOrders env orders w) := by
  intro orders later
  induction orders with
  | nil => exact fun _ _ _ h => h
  | cons p orders ih =>
      intro w hI hnd hside h
      have hcall : BuyCall p w := ⟨hI, hside p List.mem_cons_self⟩
      have hlater : ∀ q ∈ orders ++ later, (w.mem q).side = .BUY := fun q hq =>
        hside q (List.mem_cons_of_mem _ hq)
      refine ih (hcall.bookInv_after env) (List.nodup_cons.mp hnd).2 (fun q hq => ?_)
        (h.matchOrder hcall hnd hlater)
      rw [hcall.line_after env]
      exact hlater q hq

/-- **One level** of the second pass. -/
theorem passLevel_open {pre post : List (Price × OrderGroup)} {price : Price} {g : OrderGroup}
    (hI : BookInv w) (h : (w.book .BUY).Split pre price g post)
    (hP : PassOpen (g.mOrders ++ levelOrders post) w) :
    PassOpen (levelOrders post) (passLevel env pre.length g w) := by
  have hperm := (sortOrders_perm env w.mem g.mOrders).append_right (levelOrders post)
  have hptrs := ptrs_of_split h
  have hnd := hI.nodup .BUY
  rw [hptrs] at hnd
  refine matchBuyOrders_open (hI.sort env h)
    (hperm.nodup_iff.mpr (List.nodup_append.mp hnd).2.1) (fun q hq => ?_)
    ⟨fun e he => ?_, fun q hq => hP.buy q (hperm.subset hq), hP.traded⟩
  · refine hI.side_of_mem_ptrs (w := w) (s := .BUY) ?_
    rw [hptrs]
    exact List.mem_append_right _ (hperm.subset hq)
  · rw [sortGroup_book_of_ne (by decide)] at he
    exact hP.sell e he

/-- Every order of the opened books has the quantity of its line. -/
theorem auctionRead_open (hlines : ∀ o ∈ lines, o.qty ≠ 0) (s : Side) :
    ∀ p ∈ ptrs ((auctionRead lines).book s), ((auctionRead lines).mem p).leaves ≠ 0 := by
  intro p hp
  obtain ⟨o, ho, hslot⟩ := (auctionRead_inv lines).exists_line hp
  rw [hslot, leaves_ne_zero_iff]
  exact hlines o ho

theorem auctionRestored_open (hlines : ∀ o ∈ lines, o.qty ≠ 0) :
    PassOpen (ptrs ((auctionRestored lines).book .BUY)) (auctionRestored lines) where
  sell e he p hp := by
    refine auctionRead_open hlines .SELL p ?_
    rw [← (sameOrders_restored lines).ptrs_eq]
    exact List.mem_flatMap.mpr ⟨e, he, hp⟩
  buy p hp := by
    refine auctionRead_open hlines .BUY p ?_
    rwa [auctionRestored, World.setBook_book_of_ne _ _ _ (by decide), auctionOpen_book,
      (sameOrders_consolidateQty _).ptrs_eq] at hp
  traded := by
    have hnone : (auctionRestored lines).reports = [] := (auctionOpen_inv lines).noReports
    rw [RealTrades, hnone]
    exact List.forall_mem_nil _

theorem auction_realTrades (env : Platform) (hlines : ∀ o ∈ lines, o.qty ≠ 0) :
    RealTrades (processAuctionOrders env lines) := by
  obtain ⟨pre, post, hentries, -, hP⟩ := secondPass_rule env (targetPrice (auctionOpen lines))
    (fun pre w => ∀ post, (w.book .BUY).entries = pre ++ post → PassOpen (levelOrders post) w)
    (fun {pre price g post w} hI h _ hP post' hpost => by
      rw [(passLevel_run env hI h).2, List.append_cons] at hpost
      rw [← List.append_cancel_left hpost]
      exact passLevel_open hI h (hP _ h))
    _ (auctionRestored_inv lines) (List.nil_append _).symm rfl
    fun post hpost => by
      rw [List.nil_append] at hpost
      rw [← hpost]
      exact auctionRestored_open hlines
  exact (hP post hentries).traded

theorem auctionAddition_qty (lines : List OrderLine) (o : OrderLine) :
    (auctionAddition (auctionRead lines) o).getCurrentQty = o.qty := by
  rw [auctionAddition, (auctionRead_inv lines).construct_self]
  rfl

theorem auctionNoEmpty_iff (env : Platform) (lines : List OrderLine) :
    AuctionNoEmpty env lines ↔ ∀ o ∈ lines, o.qty ≠ 0 := by
  constructor
  · intro h o ho
    obtain ⟨n, hn⟩ := List.mem_iff_getElem?.mp ho
    have hadded := h.added n o hn
    rwa [auctionAddition_qty] at hadded
  · intro h
    refine ⟨fun n o hn => ?_, auction_realTrades env h⟩
    rw [auctionAddition_qty]
    exact h o (List.mem_of_getElem? hn)

end Auction

/-- **No empty fills**: always under the normal rule, and in the auction exactly when no
line has the quantity zero. -/
theorem noEmptyFills_iff (env : Platform) (lines : List OrderLine) :
    NormalNoEmpty env lines ∧ (AuctionNoEmpty env lines ↔ ∀ o ∈ lines, o.qty ≠ 0) :=
  ⟨⟨fun _ o _ => (normal_inv env _).addition o, normal_realTrades env lines⟩,
    auctionNoEmpty_iff env lines⟩

/-- An auction of a sell order of 0, a sell order of 1 and a buy order of 1: the first
one is added to the book, and its trade of 0 is reported. -/
theorem auction_trades_nothing :
    ¬ ∀ env lines, NormalNoEmpty env lines ∧ AuctionNoEmpty env lines := by
  intro h
  let line (qty : Quantity) (price : Price) (side : Side) : OrderLine :=
    { id := "1", party := "A", price := price, qty := qty, sequence := 1, side := side }
  have hreal := (h default [line 0 9000 .SELL, line 1 10000 .SELL, line 1 10000 .BUY]).2.traded
  have hempty : ∃ r ∈ (processAuctionOrders default
      [line 0 9000 .SELL, line 1 10000 .SELL, line 1 10000 .BUY]).reports, r.mCrossQty = 0 := by
    decide +kernel
  obtain ⟨r, hr, hzero⟩ := hempty
  exact hreal r hr hzero

end LinuxProgram.PrestoLabs
