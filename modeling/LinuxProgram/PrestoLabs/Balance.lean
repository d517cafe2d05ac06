import LinuxProgram.PrestoLabs.Auction

/-!
# Accounts, orders and reports balance

`Balanced` relates the three records a fill is written to: the two orders, the
two accounts and the report.  It is an invariant of every transition of the
engine, so it holds wherever a run of either matching rule can be observed: in
the state a rule ends in, and in the state of every call of `OrderEntry::match`
on the way (`records_balance`).

The law for an order is stated for the record in a slot.  The record of line `n`
stays in its slot from its construction on; a slot is constructed in again only
when its order does not rest in a book, after which no report names that line
any more.
-/

namespace LinuxProgram.PrestoLabs

open Lib

/-! ### Sums over the values of a finite map -/

section MapSum

variable {α β : Type*} [DecidableEq α]

/-- The sum of a weight over the values of a map. -/
def mapSum (weight : β → ℕ) (m : AList fun _ : α => β) : ℕ :=
  (m.entries.map fun e => weight e.2).sum

theorem kerase_sum (weight : β → ℕ) (a : α) (l : List (Sigma fun _ : α => β)) :
    ((l.kerase a).map fun e => weight e.2).sum + ((l.dlookup a).map weight).getD 0
      = (l.map fun e => weight e.2).sum := by
  induction l with
  | nil => rfl
  | cons e l ih =>
      obtain ⟨k, b⟩ := e
      by_cases h : a = k
      · subst h
        rw [List.kerase_cons_eq (s := (⟨a, b⟩ : Sigma fun _ : α => β)) rfl, List.dlookup_cons_eq]
        simp [Nat.add_comm]
      · rw [List.kerase_cons_ne (s := (⟨k, b⟩ : Sigma fun _ : α => β)) h,
          List.dlookup_cons_ne l ⟨k, b⟩ h]
        simp only [List.map_cons, List.sum_cons]
        omega

/-- Writing an entry adds its weight, less that of the entry it replaces. -/
theorem mapSum_insert (weight : β → ℕ) (m : AList fun _ : α => β) (a : α) (b : β) :
    mapSum weight (m.insert a b) + ((m.lookup a).map weight).getD 0
      = mapSum weight m + weight b := by
  have h := kerase_sum weight a m.entries
  simp only [mapSum, AList.entries_insert, List.map_cons, List.sum_cons, AList.lookup]
  omega

end MapSum

/-! ### `Balanced` -/

/-- The quantity of the reports that satisfy `φ`. -/
def tradedQty (φ : ReportEntry → Bool) (reports : List ReportEntry) : ℕ :=
  ((reports.filter φ).map fun r => r.mCrossQty.toNat).sum

theorem tradedQty_concat (φ : ReportEntry → Bool) (reports : List ReportEntry)
    (r : ReportEntry) :
    tradedQty φ (reports ++ [r]) = tradedQty φ reports + if φ r then r.mCrossQty.toNat else 0 := by
  simp only [tradedQty, List.filter_append, List.map_append, List.sum_append]
  by_cases h : φ r = true
  · simp [h]
  · simp [h]

/-- The sum of `longQty` or `shortQty` over all accounts. -/
def Exchange.sideTotal (x : Exchange) (s : Side) : ℕ := mapSum (Account.sideQty s) x.accounts

/-- **Accounts, orders and reports balance.** The reports are the record of what was traded: the
totals of both sides, the totals of each account and what is missing of each order in memory are
sums over them. -/
structure Balanced (x : Exchange) : Prop where
  /-- the two orders of a report are on different sides -/
  sides : ∀ r ∈ x.reports, ∀ s, (r.onSide s).side = s
  total : ∀ s, x.sideTotal s = tradedQty (fun _ => true) x.reports
  party : ∀ s party, (x.account party).sideQty s
    = tradedQty (fun r => (r.onSide s).party = party) x.reports
  order : ∀ p n, (x.mem p).line = some n →
    (x.mem p).leaves + tradedQty (fun r => r.names n) x.reports = (x.mem p).qty.toNat

section Accounts

variable {w : World} {s : Side} {pThis pIncoming : ℕ}

theorem account_updateAccount (party party' : String) (s : Side) (q : Quantity) (price : Price) :
    (w.updateAccount party s q price).account party'
      = if party' = party then (w.account party).update s q price else w.account party' := by
  by_cases h : party' = party
  · subst h
    simp [Exchange.account, World.updateAccount]
  · simp [Exchange.account, World.updateAccount, AList.lookup_insert_ne h, h]

theorem sideQty_updateAccount (party party' : String) (s s' : Side) (q : Quantity)
    (price : Price) :
    ((w.updateAccount party s q price).account party').sideQty s'
      = (w.account party').sideQty s' + if s' = s ∧ party' = party then q.toNat else 0 := by
  rw [account_updateAccount]
  by_cases hp : party' = party
  · subst hp
    by_cases hs : s' = s
    · subst hs
      simp
    · simp [hs, Account.sideQty_update_of_ne hs]
  · simp [hp]

theorem sideTotal_updateAccount (party : String) (s s' : Side) (q : Quantity) (price : Price) :
    (w.updateAccount party s q price).sideTotal s'
      = w.sideTotal s' + if s' = s then q.toNat else 0 := by
  have h := mapSum_insert (Account.sideQty s') w.accounts party
    ((w.account party).update s q price)
  have hold : ((w.accounts.lookup party).map (Account.sideQty s')).getD 0
      = (w.account party).sideQty s' := by
    rw [Exchange.account]
    cases w.accounts.lookup party <;> simp
  rw [hold] at h
  simp only [Exchange.sideTotal, World.updateAccount]
  by_cases hs : s' = s
  · subst hs
    rw [Account.sideQty_update_self] at h
    simp
    omega
  · rw [Account.sideQty_update_of_ne hs] at h
    simp [hs]
    omega

theorem matchEntry_accounts (h : pThis ≠ pIncoming) :
    (matchEntry s pThis pIncoming w).2.accounts =
      ((w.updateAccount (w.mem pThis).party s (crossed w pThis pIncoming)
          (w.mem pThis).price).updateAccount (w.mem pIncoming).party s.opposite
        (crossed w pThis pIncoming) (w.mem pThis).price).accounts := by
  have hline := tradedMem_toOrderLine w pThis pIncoming
  have hparty : ∀ p, (tradedMem w pThis pIncoming p).party = (w.mem p).party := fun p =>
    congrArg OrderLine.party (hline p)
  have hprice : (tradedMem w pThis pIncoming pThis).price = (w.mem pThis).price :=
    congrArg OrderLine.price (hline pThis)
  simp only [tradedMem, crossed] at hparty hprice
  rw [matchEntry_eq]
  simp only [matchEntryWith, World.updateAccount, World.addReport, World.setEntry,
    Exchange.account, crossed]
  rw [Function.update_of_ne h, hparty, hparty, hprice]

/-- A trade books the crossed quantity once on either side. -/
theorem matchEntry_sideTotal (h : pThis ≠ pIncoming) (s' : Side) :
    (matchEntry s pThis pIncoming w).2.sideTotal s'
      = w.sideTotal s' + (crossed w pThis pIncoming).toNat := by
  rw [Exchange.sideTotal, matchEntry_accounts h]
  refine (sideTotal_updateAccount ..).trans ?_
  rw [sideTotal_updateAccount]
  cases s <;> cases s' <;> simp [Side.opposite]

/-- On side `s` the resting party is booked, on the other one the incoming party. -/
theorem matchEntry_sideQty (h : pThis ≠ pIncoming) (s' : Side) (party : String) :
    ((matchEntry s pThis pIncoming w).2.account party).sideQty s'
      = (w.account party).sideQty s' +
        if (w.mem (if s' = s then pThis else pIncoming)).party = party
          then (crossed w pThis pIncoming).toNat else 0 := by
  rw [Exchange.account, matchEntry_accounts h]
  refine (sideQty_updateAccount ..).trans ?_
  rw [sideQty_updateAccount]
  cases s <;> cases s' <;> simp [Side.opposite, eq_comm]

end Accounts

/-! ### Every transition keeps the balance -/

section Invariant

variable {env : Platform} {w w' : World} {s : Side} {pIncoming : ℕ}

/-- What `Balanced` looks at. -/
theorem Balanced.congr {x x' : Exchange} (h : Balanced x) (hmem : x'.mem = x.mem)
    (haccounts : x'.accounts = x.accounts) (hreports : x'.reports = x.reports) :
    Balanced x' where
  sides := by rw [hreports]; exact h.sides
  total s := by rw [Exchange.sideTotal, haccounts, hreports]; exact h.total s
  party s party := by rw [Exchange.account, haccounts, hreports]; exact h.party s party
  order p n := by rw [hmem, hreports]; exact h.order p n

/-- What a fill leaves and what it reports of the order in slot `p`. -/
theorem tradedMem_balance
    (hinj : ∀ p q n, (w.mem p).line = some n → (w.mem q).line = some n → p = q) {r : ℕ}
    (hne : r ≠ pIncoming) {p n : ℕ} (hp : (w.mem p).line = some n) :
    (tradedMem w r pIncoming p).leaves +
        (if (crossReport w r pIncoming).names n then (crossed w r pIncoming).toNat else 0)
      = (w.mem p).leaves := by
  by_cases hr : p = r
  · subst hr
    rw [if_pos (crossReport_names.mpr (.inr hp)), tradedMem_leaves_this]
    exact Nat.sub_add_cancel (crossed_le_this w p pIncoming)
  · by_cases hi : p = pIncoming
    · subst hi
      rw [if_pos (crossReport_names.mpr (.inl hp)), tradedMem_leaves_incoming hne]
      exact Nat.sub_add_cancel (crossed_le_incoming w r p)
    · have hnames : ¬ (crossReport w r pIncoming).names n = true := by
        rw [crossReport_names]
        rintro (hn | hn)
        · exact hi (hinj _ _ n hp hn)
        · exact hr (hinj _ _ n hp hn)
      rw [if_neg hnames, tradedMem_of_ne hr hi, Nat.add_zero]

/-- **A fill keeps the balance**: either side of the accounts and either order gets what
the report says. -/
theorem Balanced.fill (h : Balanced w.toExchange) (hI : BookInv w)
    {pre post : List (Price × OrderGroup)} {key : Price} {g : OrderGroup} {r : ℕ} {os : List ℕ}
    (hs : (w.book s).Split pre key g post) (hg : g.mOrders = r :: os) (hne : r ≠ pIncoming)
    (hside : (w.mem pIncoming).side = s.opposite) :
    Balanced (fillStep s pre.length r pIncoming w).toExchange := by
  have hrside : (w.mem r).side = s := (hI.own s _ hs.mem r (by simp [hg])).1
  have hline := tradedMem_toOrderLine w r pIncoming
  have hreports := fillStep_reports (s := s) (w := w) hne pre.length
  have haccounts := fillStep_accounts (s := s) (w := w) hne pre.length
  exact {
    sides := fun r' hr' s' => by
      rw [hreports, List.mem_append, List.mem_singleton] at hr'
      rcases hr' with hr' | rfl
      · exact h.sides r' hr' s'
      · rw [crossReport_onSide hside, congrArg OrderLine.side (hline _)]
        by_cases hs' : s' = s
        · rw [if_pos hs', hrside, hs']
        · rw [if_neg hs', hside]
          cases s <;> cases s' <;> simp_all [Side.opposite]
    total := fun s' => by
      rw [hreports, tradedQty_concat, if_pos rfl, ← h.total s', Exchange.sideTotal, haccounts]
      exact matchEntry_sideTotal hne s'
    party := fun s' party => by
      have hbooked := matchEntry_sideQty (w := w) (s := s) hne s' party
      rw [Exchange.account] at hbooked
      rw [hreports, tradedQty_concat, ← h.party s' party, Exchange.account, haccounts, hbooked,
        crossReport_onSide hside, congrArg OrderLine.party (hline _)]
      simp only [decide_eq_true_eq]
      rfl
    order := fun p n hp => by
      rw [fillStep_mem hne] at hp ⊢
      rw [tradedMem_line] at hp
      have hold := h.order p n hp
      have hfill := tradedMem_balance hI.lineInj hne hp
      rw [hreports, tradedQty_concat, congrArg OrderLine.qty (hline p), ← hold, ← hfill]
      exact (Nat.add_assoc ..).symm.trans (Nat.add_right_comm ..) }

/-- **Every transition keeps the balance.** -/
theorem EngineStep.balanced (h : EngineStep env w w') (hI : BookInv w)
    (hB : Balanced w.toExchange) : Balanced w'.toExchange := by
  cases h with
  | @construct p n o hslot hline hreports =>
      refine ⟨hB.sides, hB.total, hB.party, fun q m hq => ?_⟩
      by_cases hqp : q = p
      · subst hqp
        have hself : (w.setEntry q (OrderEntry.ofLine n o)).mem q = OrderEntry.ofLine n o :=
          Function.update_self ..
        rw [hself] at hq ⊢
        obtain rfl : n = m := Option.some.inj hq
        have hzero : tradedQty (fun r => r.names n) w.reports = 0 := by
          rw [tradedQty, List.filter_eq_nil_iff.mpr fun r hr => by simp [hreports r hr]]
          rfl
        change _ + tradedQty _ w.reports = _
        rw [hzero]
        rfl
      · have hmem : (w.setEntry p (OrderEntry.ofLine n o)).mem q = w.mem q :=
          Function.update_of_ne hqp _ _
        rw [hmem] at hq ⊢
        exact hB.order q m hq
  | add hslot hside => exact hB.congr rfl rfl rfl
  | trade hside hstep =>
      cases hstep with
      | sort h => exact hB.congr rfl rfl rfl
      | fill h hg hne hdead hkey hprice => exact hB.fill hI h hg hne hside
      | drop h hzero => exact hB.congr rfl rfl rfl
      | readEnd => exact hB.congr rfl rfl rfl
  | retotal hsame hbound => exact hB.congr rfl rfl rfl
  | sort h => exact hB.congr rfl rfl rfl

theorem balanced_default : Balanced (default : Exchange) where
  sides r hr := by simp [show (default : Exchange).reports = [] from rfl] at hr
  total s := rfl
  party s party := by cases s <;> rfl
  order p n hp := by simp [show ((default : Exchange).mem p).line = none from rfl] at hp

end Invariant

/-! ### Both rules -/

/-- The balance holds in a state and in every state a trade on the way to it was
made in. -/
theorem EngineRun.balanced {env : Platform} {w : World} (h : EngineRun env default w) :
    Balanced w.toExchange ∧ ∀ c ∈ w.calls, Balanced c.before := by
  refine EngineRun.rule (I := fun w => Balanced w.toExchange ∧ ∀ c ∈ w.calls, Balanced c.before)
    ⟨balanced_default, by simp [show (default : World).calls = [] from rfl]⟩ ?_ h
  rintro w w' hI hstep ⟨hB, hcalls⟩
  refine ⟨hstep.balanced hI hB, ?_⟩
  rcases hstep.calls_cases with ⟨hc, -⟩ | ⟨c, hfill, hc, -⟩
  · rw [hc]
    exact hcalls
  · rw [hc]
    intro c' hc'
    rcases List.mem_append.mp hc' with hc' | hc'
    · exact hcalls c' hc'
    · rw [List.mem_singleton.mp hc', hfill.before]
      exact hB

/-- **Accounts, orders and reports balance** under either rule, after every list
of lines and before every trade on the way. -/
theorem records_balance (env : Platform) (lines : List OrderLine) :
    (Balanced (processNormalOrders env lines).toExchange ∧
      ∀ c ∈ (processNormalOrders env lines).calls, Balanced c.before) ∧
    (Balanced (processAuctionOrders env lines).toExchange ∧
      ∀ c ∈ (processAuctionOrders env lines).calls, Balanced c.before) :=
  ⟨EngineRun.balanced (normal_run env lines), EngineRun.balanced (auction_run env lines)⟩

end LinuxProgram.PrestoLabs
