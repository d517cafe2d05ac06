import LinuxProgram.PrestoLabs.Auction

/-!
# Price and key priority

Every report is written by one call of `OrderEntry::match` (`ReportOf`), and at
the moment of that call the resting order is the one the rules prefer
(`HasPriority`): nothing waits at a better price, and nothing at its own price
has a larger `getKey()`.  What that means for the two builds is read off the key:
under `NORMAL_RULE_APPLY` nothing older waits at that price, without it the
resting order has the largest quantity.
-/

namespace LinuxProgram.PrestoLabs

open Lib

variable {env : Platform}

/-- **The resting order of a trade is the one the rules prefer.** -/
structure HasPriority (env : Platform) (c : MatchCall) : Prop where
  /-- it rests in the book, at its own price -/
  rests : ∃ e ∈ (c.before.book c.side).entries,
    e.1 = (c.before.mem c.resting).price ∧ c.resting ∈ e.2.mOrders
  /-- nothing waits at a better price -/
  price : ∀ e ∈ (c.before.book c.side).entries,
    cmp c.side e.1 (c.before.mem c.resting).price = true →
      ∀ p ∈ e.2.mOrders, (c.before.mem p).leaves = 0
  /-- nothing waits at its price with a larger key -/
  key : ∀ e ∈ (c.before.book c.side).entries, e.1 = (c.before.mem c.resting).price →
    ∀ p ∈ e.2.mOrders, (c.before.mem p).leaves ≠ 0 →
      (c.before.mem p).getKey env.normalRuleApply
        ≤ (c.before.mem c.resting).getKey env.normalRuleApply
  /-- under `NORMAL_RULE_APPLY` nothing older waits at its price -/
  oldest : env.normalRuleApply = true →
    ∀ e ∈ (c.before.book c.side).entries, e.1 = (c.before.mem c.resting).price →
      ∀ p ∈ e.2.mOrders, (c.before.mem p).leaves ≠ 0 →
        ¬ (c.before.mem p).sequence < (c.before.mem c.resting).sequence
  /-- without it the resting order is the largest of its price -/
  largest : env.normalRuleApply = false →
    ∀ e ∈ (c.before.book c.side).entries, e.1 = (c.before.mem c.resting).price →
      ∀ p ∈ e.2.mOrders, (c.before.mem p).leaves ≤ (c.before.mem c.resting).leaves

/-- The report `r` is the one the call `c` wrote: who traded, how much, and at
which price. -/
structure ReportOf (r : ReportEntry) (c : MatchCall) : Prop where
  incoming : r.mOrderPtr1 = c.incoming
  resting : r.mOrderPtr2 = c.resting
  crossQty : r.mCrossQty.toNat
    = min (c.before.mem c.incoming).leaves (c.before.mem c.resting).leaves
  crossPrice : r.mCrossPrice = (c.before.mem c.resting).price

/-- Two entries of a book with the same key are one. -/
theorem entry_unique {s : Side} {m : Levels s} {pre post : List (Price × OrderGroup)}
    {key : Price} {g : OrderGroup} (h : m.Split pre key g post) {e : Price × OrderGroup}
    (he : e ∈ m.entries) (hkey : e.1 = key) : e = (key, g) := by
  rw [h, List.mem_append, List.mem_cons] at he
  rcases he with he | he | he
  · exact absurd hkey (ComparatorLaws.ne_of_cmp (h.before he))
  · exact he
  · exact absurd hkey.symm (ComparatorLaws.ne_of_cmp (h.after he))

/-- A better level than the one at `key` comes before it. -/
theorem entry_before {s : Side} {m : Levels s} {pre post : List (Price × OrderGroup)}
    {key : Price} {g : OrderGroup} (h : m.Split pre key g post) {e : Price × OrderGroup}
    (he : e ∈ m.entries) (hkey : cmp s e.1 key = true) : e ∈ pre := by
  rw [h, List.mem_append, List.mem_cons] at he
  rcases he with he | rfl | he
  · exact he
  · simp [ComparatorLaws.cmp_self (cmp s) key] at hkey
  · simp [ComparatorLaws.asymm (h.after he)] at hkey

/-- **A fill respects priority.** -/
theorem FillCall.hasPriority {w : World} {c : MatchCall} (h : FillCall env w c)
    (hI : BookInv w) : HasPriority env c := by
  obtain ⟨pre, key, g, post, os, hs, hg, hdead, hkeys, -⟩ := h.level
  have hprice : (w.mem c.resting).price = key := (hI.own _ _ hs.mem _ (by simp [hg])).2
  -- the first order of the level has the largest key of the level
  have hlargest : ∀ e ∈ (w.book c.side).entries, e.1 = key → ∀ p ∈ e.2.mOrders,
      (w.mem p).getKey env.normalRuleApply
        ≤ (w.mem c.resting).getKey env.normalRuleApply := by
    intro e he hek p hp
    rw [entry_unique hs he hek, hg] at hp
    rcases List.mem_cons.mp hp with rfl | hp
    · exact le_rfl
    · exact hkeys p hp
  rw [← hprice] at hlargest
  have hbefore := h.before
  exact {
    rests := by
      rw [hbefore]
      exact ⟨_, hs.mem, hprice.symm, by simp [hg]⟩
    price := by
      rw [hbefore]
      intro e he hcmp p hp
      rw [hprice] at hcmp
      simp [hdead e (entry_before hs he hcmp)] at hp
    key := by
      rw [hbefore]
      exact fun e he hek p hp _ => hlargest e he hek p hp
    oldest := by
      rw [hbefore]
      intro hrule e he hek p hp _ hlt
      have := hlargest e he hek p hp
      rw [hrule] at this
      exact absurd (OrderEntry.getKey_lt_of_sequence_lt hlt) (by omega)
    largest := by
      rw [hbefore]
      intro hrule e he hek p hp
      have := hlargest e he hek p hp
      rw [hrule] at this
      exact this }

theorem FillCall.reportOf {w : World} {c : MatchCall} (h : FillCall env w c) :
    ReportOf (c.report w) c where
  incoming := rfl
  resting := rfl
  crossQty := by
    rw [h.before]
    exact crossed_toNat w _ _
  crossPrice := by rw [h.before]; rfl

/-- The reports of a run, each with its call. -/
theorem EngineRun.priority {w : World} (h : EngineRun env default w) :
    List.Forall₂ (fun r c => ReportOf r c ∧ HasPriority env c) w.reports w.calls := by
  refine EngineRun.rule
    (I := fun w => List.Forall₂ (fun r c => ReportOf r c ∧ HasPriority env c) w.reports w.calls)
    .nil ?_ h
  intro w w' hI hstep ih
  rcases hstep.calls_cases with ⟨hc, hr, -⟩ | ⟨c, hfill, hc, hr, -⟩
  · rw [hc, hr]
    exact ih
  · rw [hc, hr]
    exact List.rel_append ih (.cons ⟨hfill.reportOf, hfill.hasPriority hI⟩ .nil)

/-- **Price and key priority of every trade**, under either rule: a report of
positive quantity was written by a call whose resting order had priority. -/
theorem trade_priority (env : Platform) (lines : List OrderLine) :
    List.Forall₂ (fun r c => ReportOf r c ∧ (r.mCrossQty ≠ 0 → HasPriority env c))
      (processNormalOrders env lines).reports (processNormalOrders env lines).calls ∧
    List.Forall₂ (fun r c => ReportOf r c ∧ (r.mCrossQty ≠ 0 → HasPriority env c))
      (processAuctionOrders env lines).reports (processAuctionOrders env lines).calls :=
  ⟨(EngineRun.priority (normal_run env lines)).imp fun _ _ h => ⟨h.1, fun _ => h.2⟩,
    (EngineRun.priority (auction_run env lines)).imp fun _ _ h => ⟨h.1, fun _ => h.2⟩⟩

end LinuxProgram.PrestoLabs
