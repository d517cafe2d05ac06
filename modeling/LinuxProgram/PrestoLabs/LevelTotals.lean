import LinuxProgram.PrestoLabs.AuctionCalls

/-!
# The totals of the sell levels in the second pass

`OrderGroup::empty` carries a disabled assertion: a level has `mLeavesQty` zero exactly
when its vector is empty.  `consolidateQty` turns the totals of the levels into prefix
sums, `restoreQty` copies them into `mLeavesQty`, and from there the total of a level is
too large by what the lines offer at better prices (`restored_excess`).

* `LevelTotals` — what the assertion promises, in the states in which the second pass
  evaluates `empty()` (`emptyTests`) and between its calls of `Book::match`.
* `OneOffer` — no sell order is dearer than a sell order with a quantity.
* `levelTotals_iff` — the promise is kept exactly for the lines with `OneOffer`: the
  totals are right when the pass begins, and every step keeps right totals right.
-/

namespace LinuxProgram.PrestoLabs

open Lib

variable {env : Platform} {s : Side} {pIncoming : ℕ} {w w' : World}

/-! ### The states in which a level is tested -/

section Tests

variable (env) (s) (pIncoming)

/-- The states in which the `do`/`while` loop evaluates `group.empty()`. -/
def levelTests : ℕ → ℕ → World → List World
  | 0, _, _ => []
  | remaining + 1, i, w =>
      let pass := levelPass env s pIncoming i w
      (matchGroup env s i pIncoming w).2 ::
        if pass.1 then []
        else match (pass.2.2.book s).entries[pass.2.1]? with
          | some (key, _) =>
              if cmp s (pass.2.2.mem pIncoming).getPrice key then []
              else levelTests remaining pass.2.1 pass.2.2
          | none => []

/-- The states in which `Book<s>::match(pIncoming)` evaluates `group.empty()`. -/
def emptyTests (w : World) : List World :=
  match (w.book s).entries with
  | [] => []
  | (best, _) :: rest =>
      if cmp s (w.mem pIncoming).getPrice best then []
      else levelTests env s pIncoming (rest.length + 1) 0 w

end Tests

theorem levelTests_steps : ∀ (rest : List (Price × OrderGroup)) {w : World}
    {pre : List (Price × OrderGroup)}, LoopHead s pIncoming pre rest w →
    ∀ v ∈ levelTests env s pIncoming rest.length pre.length w, MatchSteps env s pIncoming w v := by
  intro rest
  induction rest with
  | nil => exact fun _ => List.forall_mem_nil _
  | cons x post ih =>
      intro w pre h
      obtain ⟨key, g⟩ := x
      obtain ⟨filled, pre', w', hpass⟩ := h.pass env
      have hentries : (w'.book s).entries = pre' ++ post := hpass.run.entries
      have hnd := h.nodup
      have hnotin := h.notin
      rw [ptrs_of_split h.levels] at hnd hnotin
      rw [List.length_cons, levelTests, List.forall_mem_cons]
      constructor
      · exact (matchGroup_run env h.passed h.levels
          ((List.nodup_append.mp (List.nodup_append.mp hnd).2.1).1)
          (fun hp => hnotin (by simp [hp])) (h.accepts _ rfl)).steps
      · rw [hpass.eq]
        dsimp only
        rw [hentries]
        cases filled with
        | true => exact List.forall_mem_nil _
        | false =>
            rw [if_neg Bool.false_ne_true]
            cases post with
            | nil =>
                rw [List.append_nil, List.getElem?_eq_none le_rfl]
                exact List.forall_mem_nil _
            | cons e post =>
                rw [show (pre' ++ e :: post)[pre'.length]? = some e by simp]
                dsimp only
                split
                · exact List.forall_mem_nil _
                · rename_i hcmp
                  exact fun v hv => hpass.run.steps.trans
                    (ih (hpass.next fun x hx => by
                      obtain rfl : e = x := Option.some.inj hx
                      exact Bool.eq_false_iff.mpr hcmp) v hv)

theorem emptyTests_steps (hnd : (ptrs (w.book s)).Nodup) (hnotin : pIncoming ∉ ptrs (w.book s)) :
    ∀ v ∈ emptyTests env s pIncoming w, MatchSteps env s pIncoming w v := by
  unfold emptyTests
  cases hentries : (w.book s).entries with
  | nil => exact List.forall_mem_nil _
  | cons e rest =>
      obtain ⟨best, g⟩ := e
      dsimp only
      split
      · exact List.forall_mem_nil _
      · rename_i hcmp
        exact levelTests_steps (_ :: rest)
          (loopHead_first hentries hnd hnotin (Bool.eq_false_iff.mpr hcmp))

/-! ### The promise

The assertion compares the total of a level with its vector, at every place at which the program
asks whether the level is empty.  Besides it is asked that levels whose orders are all filled are
erased, which is what the test is for. -/

/-- **What the assertion in `OrderGroup::empty` asks of a level.** -/
structure LevelAsserted (mem : ℕ → OrderEntry) (g : OrderGroup) : Prop where
  exact : g.mLeavesQty = leavesSum mem g.mOrders
  empty : (∀ p ∈ g.mOrders, 0 < (mem p).leaves) → (g.mLeavesQty = 0 ↔ g.mOrders = [])

/-- Every level of the sell book meets the assertion. -/
def SellAsserted (w : World) : Prop := ∀ e ∈ (w.book .SELL).entries, LevelAsserted w.mem e.2

/-- Every level whose orders are all filled has been erased: a level on which nothing is
left has orders, and they came without a quantity. -/
def FilledErased (w : World) : Prop :=
  ∀ e ∈ (w.book .SELL).entries, (∀ p ∈ e.2.mOrders, (w.mem p).leaves = 0) →
    e.2.mOrders ≠ [] ∧ ∀ p ∈ e.2.mOrders, (w.mem p).qty = 0

/-- **The totals of the sell levels are right**, from `restoreQty` to the end of the
second pass. -/
structure LevelTotals (env : Platform) (lines : List OrderLine) : Prop where
  restored : SellAsserted (auctionRestored lines) ∧ FilledErased (auctionRestored lines)
  /-- whenever `group.empty()` is evaluated -/
  tests : ∀ c ∈ auctionCalls env lines, ∀ v ∈ emptyTests env .SELL c.1 c.2, SellAsserted v
  /-- in front of every call of `Book::match` -/
  calls : ∀ c ∈ auctionCalls env lines, SellAsserted c.2 ∧ FilledErased c.2
  final : SellAsserted (processAuctionOrders env lines) ∧
    FilledErased (processAuctionOrders env lines)

/-- **No sell order is dearer than a sell order with a quantity.** -/
def OneOffer (lines : List OrderLine) : Prop :=
  ∀ o ∈ lines, ∀ o' ∈ lines, o.side = .SELL → o'.side = .SELL → o.qty ≠ 0 → ¬ o.price < o'.price

/-! ### Right totals stay right -/

/-- Every total of a book is the quantity left on its level. -/
def ExactBook (s : Side) (w : World) : Prop :=
  ∀ e ∈ (w.book s).entries, e.2.mLeavesQty = leavesSum w.mem e.2.mOrders

theorem leavesSum_eq_zero {mem : ℕ → OrderEntry} {l : List ℕ} :
    leavesSum mem l = 0 ↔ ∀ p ∈ l, (mem p).leaves = 0 := by
  simp [leavesSum, List.sum_eq_zero_iff]

theorem ExactBook.asserted (h : ExactBook .SELL w) : SellAsserted w := by
  refine fun e he => ⟨h e he, fun hpos => ?_⟩
  rw [h e he, leavesSum_eq_zero]
  constructor
  · intro hzero
    exact List.eq_nil_iff_forall_not_mem.mpr fun p hp => (hpos p hp).ne' (hzero p hp)
  · rintro hnil p hp
    rw [hnil] at hp
    exact absurd hp List.not_mem_nil

theorem MatchStep.exactBook (h : MatchStep env s pIncoming w w') (hI : BookInv w)
    (hside : (w.mem pIncoming).side = s.opposite) (hE : ExactBook s w) : ExactBook s w' := by
  intro e he
  cases h.levelStep hI hside e he with
  | kept he hmem =>
      exact (hE e he).trans (leavesSum_congr fun p hp => by rw [hmem p hp])
  | sorted hg hmem hperm =>
      rw [hmem]
      exact (hE _ hg).trans (leavesSum_perm hperm.symm)
  | filled hg hhead hr hin hne hmem =>
      have htotal := hE _ hg
      have hsum := leavesSum_fill (w := w) hr hin
      rw [hmem]
      dsimp only at htotal ⊢
      rw [hhead] at htotal
      omega

theorem MatchSteps.exactBook (h : MatchSteps env s pIncoming w w') (hI : BookInv w)
    (hside : (w.mem pIncoming).side = s.opposite) (hE : ExactBook s w) : ExactBook s w' := by
  induction h with
  | refl => exact hE
  | tail hsteps hstep ih =>
      exact hstep.exactBook (MatchSteps.bookInv hsteps hside hI)
        ((MatchSteps.side_eq hsteps pIncoming).trans hside) ih

/-- A level that a call leaves with the total zero is one the call did not come to. -/
theorem matchOrder_untouched (hnd : (ptrs (w.book s)).Nodup)
    (hnotin : pIncoming ∉ ptrs (w.book s)) :
    ∀ e ∈ ((matchOrder env s pIncoming w).2.book s).entries,
      e.2.mLeavesQty = 0 → e ∈ (w.book s).entries := by
  have hpass : ∀ {pre key g post w filled pre' w'},
      LoopPass env s pIncoming pre key g post w filled pre' w' →
      ∀ e ∈ (w'.book s).entries, e.2.mLeavesQty = 0 → e ∈ (w.book s).entries := by
    intro pre key g post w filled pre' w' h
    have hentries : (w'.book s).entries = pre' ++ post := h.run.entries
    rw [hentries, h.head.levels, List.forall_mem_append]
    refine ⟨h.forall_pre' (fun e => e.2.mLeavesQty = 0 → _) (fun e he _ => ?_)
      fun g' hz h0 => absurd h0 hz, fun e he _ => ?_⟩
    · exact List.mem_append_left _ he
    · exact List.mem_append_right _ (List.mem_cons_of_mem _ he)
  unfold matchOrder
  cases hlevels : (w.book s).entries with
  | nil =>
      intro e he
      rw [hlevels] at he
      exact absurd he List.not_mem_nil
  | cons e rest =>
      obtain ⟨best, g⟩ := e
      dsimp only
      split
      · rw [hlevels]
        exact fun e he _ => he
      · rename_i hcmp
        rw [← hlevels]
        exact matchLevels_rule env s pIncoming
          (fun _ w r => ∀ e ∈ (r.2.book s).entries, e.2.mLeavesQty = 0 → e ∈ (w.book s).entries)
          hpass hpass (fun h _ => hpass h) (fun h _ ih e he hz => hpass h e (ih e he hz) hz)
          (_ :: rest) (List.cons_ne_nil _ _)
          (loopHead_first hlevels hnd hnotin (Bool.eq_false_iff.mpr hcmp))

/-- **A call keeps the promise.** -/
theorem BuyCall.totals {p : ℕ} (h : BuyCall p w) (hE : ExactBook .SELL w) (hF : FilledErased w) :
    ExactBook .SELL (matchOrder env .SELL p w).2 ∧
      FilledErased (matchOrder env .SELL p w).2 := by
  have hE' := MatchSteps.exactBook (h.run env).steps h.toBookInv h.buy hE
  refine ⟨hE', fun e he hzero => ?_⟩
  have hold := matchOrder_untouched (h.nodup .SELL) (h.notMem_ptrs h.buy) e he
    ((hE' e he).trans (leavesSum_eq_zero.mpr hzero))
  have hz : leavesSum w.mem e.2.mOrders = 0 := by
    rw [← hE e hold, hE' e he, leavesSum_eq_zero]
    exact hzero
  obtain ⟨hne, hqty⟩ := hF e hold (leavesSum_eq_zero.mp hz)
  refine ⟨hne, fun q hq => ?_⟩
  rw [h.line_after env]
  exact hqty q hq

/-! ### The totals `restoreQty` leaves

`restoreQty` is to give each level its own quantity back, and stores `mTotalQty`, of which
`consolidateQty` has made a prefix sum.  The quantity of a level is then too large by what is
offered at better prices, so it is right exactly where nothing is. -/

section Restored

variable {lines : List OrderLine}

theorem lineQty_eq_zero {φ : Price → Bool} : lineQty lines s φ = 0 ↔
    ∀ o ∈ lines, o.side = s → φ o.price = true → o.qty = 0 := by
  simp only [lineQty, List.sum_eq_zero_iff, List.mem_map, List.mem_filter, Bool.and_eq_true,
    decide_eq_true_eq]
  constructor
  · intro h o ho hs hφ
    exact UInt32.toNat_inj.mp (h _ ⟨o, ⟨ho, hs, hφ⟩, rfl⟩)
  · rintro h _ ⟨o, ⟨ho, hs, hφ⟩, rfl⟩
    rw [h o ho hs hφ]
    rfl

/-- A level comes to be with an order in it. -/
theorem auctionRead_nonempty (lines : List OrderLine) (s : Side) :
    ∀ e ∈ ((auctionRead lines).book s).entries, e.2.mOrders ≠ [] := by
  induction lines using List.reverseRecOn with
  | nil => exact List.forall_mem_nil _
  | append_singleton lines o ih =>
      intro e he
      rw [auctionRead, List.foldl_append] at he
      change e ∈ ((auctionLine (auctionRead lines) o).book s).entries at he
      rw [auctionLine_eq (auctionRead_inv lines).toSessionInv] at he
      change e ∈ (((auctionRead lines).added o).book s).entries at he
      by_cases hs : s = o.side
      · subst hs
        rcases mem_addOrder he with he | ⟨g, rfl, -⟩
        · exact ih e he
        · exact List.append_ne_nil_of_right_ne_nil _ (List.cons_ne_nil _ _)
      · rw [Session.added, addOrder_book_of_ne hs] at he
        exact ih e he

theorem auctionRestored_sell (lines : List OrderLine) :
    (auctionRestored lines).book .SELL = restoreQty ((auctionOpen lines).book .SELL) :=
  World.setBook_book_self ..

/-- The sell book still has the orders the reading loop put there. -/
theorem sameOrders_restored (lines : List OrderLine) :
    SameOrders ((auctionRead lines).book .SELL) ((auctionRestored lines).book .SELL) := by
  rw [auctionRestored_sell, auctionOpen_book]
  exact (sameOrders_restoreQty _).trans (sameOrders_consolidateQty _)

/-- An order of the sell book is what its line says. -/
theorem restored_slot {e : Price × OrderGroup}
    (he : e ∈ ((auctionRestored lines).book .SELL).entries) {p : ℕ} (hp : p ∈ e.2.mOrders) :
    ∃ o ∈ lines, (auctionRestored lines).mem p = OrderEntry.ofLine p o ∧ o.side = .SELL ∧
      o.price = e.1 := by
  have hread := auctionRead_inv lines
  have hmem : (auctionRestored lines).mem = (auctionRead lines).mem := rfl
  obtain ⟨e', he', hkey, horders⟩ := (sameOrders_restored lines).exists_entry he
  rw [← horders] at hp
  obtain ⟨o, ho, hslot⟩ := hread.exists_line (List.mem_flatMap.mpr ⟨e', he', hp⟩)
  obtain ⟨hside, hprice⟩ := hread.own .SELL e' he' p hp
  rw [hslot] at hside hprice
  exact ⟨o, ho, hmem ▸ hslot, hside, hprice.trans hkey⟩

/-- There is a level for every sell line. -/
theorem exists_restored_level {o : OrderLine} (ho : o ∈ lines) (hside : o.side = .SELL) :
    ∃ e ∈ ((auctionRestored lines).book .SELL).entries, e.1 = o.price := by
  have hread := auctionRead_inv lines
  obtain ⟨n, hn⟩ := List.mem_iff_getElem?.mp ho
  obtain ⟨hslot, hp⟩ := hread.slot n o hn
  rw [hside] at hp
  obtain ⟨e, he, hpe⟩ := List.mem_flatMap.mp hp
  have hprice := (hread.own .SELL e he n hpe).2
  rw [hslot] at hprice
  obtain ⟨e', he', hkey, -⟩ := SameOrders.exists_entry (sameOrders_restored lines).symm he
  exact ⟨e', he', hkey.trans hprice.symm⟩

/-- **The total of a level is too large by what the lines offer at better prices.** -/
theorem restored_excess {e : Price × OrderGroup}
    (he : e ∈ ((auctionRestored lines).book .SELL).entries) :
    e.2.mLeavesQty = leavesSum (auctionRestored lines).mem e.2.mOrders +
      lineQty lines .SELL fun k => cmp .SELL k e.1 := by
  have hopen := auctionOpen_inv lines
  rw [auctionRestored_sell] at he
  obtain ⟨g, hg, heq⟩ := mem_restoreQty he
  obtain ⟨pre, post, hsplit⟩ := List.append_of_mem hg
  replace hsplit : ((auctionOpen lines).book .SELL).Split pre e.1 g post := hsplit
  have hupTo := hopen.resting .SELL fun k => !cmp .SELL e.1 k
  have hbefore := hopen.resting .SELL fun k => cmp .SELL k e.1
  rw [restingQty, hsplit.sumWhere_notAfter] at hupTo
  rw [restingQty, hsplit.sumWhere_before] at hbefore
  have htotal : e.2.mLeavesQty = g.mTotalQty := by rw [heq]; rfl
  have horders : e.2.mOrders = g.mOrders := by rw [heq]; rfl
  rw [htotal, horders, hopen.prefixTotal .SELL _ hg, ← hupTo, ← hbefore]
  exact Nat.add_comm _ _

/-- The totals are right exactly when there is one offer. -/
theorem restored_exact_iff : ExactBook .SELL (auctionRestored lines) ↔ OneOffer lines := by
  constructor
  · intro h o ho o' ho' hside hside' hqty hlt
    obtain ⟨e, he, hkey⟩ := exists_restored_level ho' hside'
    have hexcess := restored_excess he
    rw [h e he] at hexcess
    refine hqty (lineQty_eq_zero.mp (Nat.left_eq_add.mp hexcess) o ho hside ?_)
    rw [hkey]
    simpa [cmp, cmpSell] using hlt
  · intro h e he
    obtain ⟨p, hp⟩ := List.exists_mem_of_ne_nil _ (show e.2.mOrders ≠ [] by
      obtain ⟨e', he', -, horders⟩ := (sameOrders_restored lines).exists_entry he
      rw [← horders]
      exact auctionRead_nonempty lines .SELL e' he')
    obtain ⟨o', ho', -, hside', hprice⟩ := restored_slot he hp
    rw [restored_excess he, lineQty_eq_zero.mpr, Nat.add_zero]
    intro o ho hside hlt
    by_contra hqty
    refine h o ho o' ho' hside hside' hqty ?_
    rw [hprice]
    simpa [cmp, cmpSell] using hlt

theorem restored_filledErased (lines : List OrderLine) : FilledErased (auctionRestored lines) := by
  intro e he hzero
  constructor
  · obtain ⟨e', he', -, horders⟩ := (sameOrders_restored lines).exists_entry he
    rw [← horders]
    exact auctionRead_nonempty lines .SELL e' he'
  · intro p hp
    obtain ⟨o, -, hslot, -, -⟩ := restored_slot he hp
    have hz := hzero p hp
    rw [hslot, OrderEntry.ofLine_leaves] at hz
    rw [hslot]
    exact UInt32.toNat_inj.mp hz

/-- **The assertion holds through the second pass exactly for the lines with one
offer.** -/
theorem levelTotals_iff (env : Platform) (lines : List OrderLine) :
    LevelTotals env lines ↔ OneOffer lines := by
  constructor
  · intro h
    exact restored_exact_iff.mp fun e he => (h.restored.1 e he).exact
  · intro h
    have hexact := restored_exact_iff.mpr h
    have herased := restored_filledErased lines
    obtain ⟨hcalls, hfinal⟩ := auctionCalls_rule env lines
      (fun w => ExactBook .SELL w ∧ FilledErased w) ⟨hexact, herased⟩
      (fun {w pre price g post} _ _ hI => by
        have hbook : (sortGroup env .BUY pre.length w).book .SELL = w.book .SELL :=
          sortGroup_book_of_ne (by decide) _
        have hmem : (sortGroup env .BUY pre.length w).mem = w.mem := rfl
        simpa only [ExactBook, FilledErased, hbook, hmem] using hI)
      fun hcall hI => hcall.totals hI.1 hI.2
    exact {
      restored := ⟨hexact.asserted, herased⟩
      tests := fun c hc v hv => by
        obtain ⟨hcall, hE, -⟩ := hcalls c hc
        have hsteps := emptyTests_steps (hcall.nodup .SELL) (hcall.notMem_ptrs hcall.buy) v hv
        exact (MatchSteps.exactBook hsteps hcall.toBookInv hcall.buy hE).asserted
      calls := fun c hc => ⟨(hcalls c hc).2.1.asserted, (hcalls c hc).2.2⟩
      final := ⟨hfinal.1.asserted, hfinal.2⟩ }

end Restored

/-- Two sell orders of 1 at the prices 10 and 11: `restoreQty` gives the second level the
total 2. -/
theorem totals_accumulate : ¬ ∀ env lines, LevelTotals env lines := by
  intro h
  let sell (id : String) (price : Price) : OrderLine :=
    { id := id, party := "A", price := price, qty := 1, sequence := 1, side := .SELL }
  have hwrong : ∃ e ∈ ((auctionRestored [sell "1" 10000, sell "2" 11000]).book .SELL).entries,
      e.2.mLeavesQty ≠ leavesSum
        (auctionRestored [sell "1" 10000, sell "2" 11000]).mem e.2.mOrders := by
    decide
  obtain ⟨e, he, hne⟩ := hwrong
  exact hne ((h default [sell "1" 10000, sell "2" 11000]).restored.1 e he).exact

end LinuxProgram.PrestoLabs
