import LinuxProgram.PrestoLabs.Book

/-!
# What `Book::match` can do

The nested loops of `Book::match(OrderEntry*)` reduce to four kinds of step on the
opposite book, and every invariant of the engine is proved against those four:

* `sort` — a level's vector is rearranged;
* `fill` — the incoming order trades with the *first* order of a level, all
  better levels having no order left, and the filled order is erased;
* `drop` — a level whose running total is zero is erased;
* `readEnd` — the key of `mOrderMap.end()` is read.

`matchOrder_run` is the decomposition: a call of `matchOrder` is a sequence of
such steps (`MatchStep`), ending in one of the ways listed by `MatchOutcome`.

The inner `for` loop only ever trades with the first order: a trade leaves the
resting order or the incoming one empty (`min`), so the iterator advances past an
order only when the loop is about to return.  `matchGroupLoop_cons` is that
observation as an equation.
-/

namespace LinuxProgram.PrestoLabs

open Lib

/-! ### The setters -/

namespace World

variable (w : World) (s : Side) (m : Levels s)

@[simp] theorem setBook_book_self : (w.setBook s m).book s = m := by simp [setBook]

theorem setBook_book_of_ne {s' : Side} (h : s' ≠ s) : (w.setBook s m).book s' = w.book s' := by
  simp [setBook, h]

@[simp] theorem setBook_mem : (w.setBook s m).mem = w.mem := rfl
@[simp] theorem setBook_accounts : (w.setBook s m).accounts = w.accounts := rfl
@[simp] theorem setBook_reports : (w.setBook s m).reports = w.reports := rfl
@[simp] theorem setBook_calls : (w.setBook s m).calls = w.calls := rfl
@[simp] theorem setBook_endReads : (w.setBook s m).endReads = w.endReads := rfl

theorem group?_of_split {pre : List (Price × OrderGroup)} {key : Price} {g : OrderGroup}
    {post : List (Price × OrderGroup)} (h : (w.book s).Split pre key g post) :
    w.group? s pre.length = some g := by
  have hm : (w.book s).entries = pre ++ (key, g) :: post := h
  simp [group?, hm]

end World

/-! ### One trade -/

/-- The quantity a trade between the two orders crosses. -/
def crossed (w : World) (pThis pIncoming : ℕ) : Quantity :=
  min (w.mem pIncoming).getCurrentQty (w.mem pThis).getCurrentQty

/-- The orders after the trade. -/
def tradedMem (w : World) (pThis pIncoming : ℕ) : ℕ → OrderEntry :=
  Function.update
    (Function.update w.mem pIncoming ((w.mem pIncoming).crossQty (crossed w pThis pIncoming)))
    pThis ((w.mem pThis).crossQty (crossed w pThis pIncoming))

theorem crossed_toNat (w : World) (pThis pIncoming : ℕ) :
    (crossed w pThis pIncoming).toNat
      = min (w.mem pIncoming).leaves (w.mem pThis).leaves := by
  simp [crossed, OrderEntry.getCurrentQty, OrderEntry.leaves, UInt32.toNat_min]

section Trade

variable {w : World} {pThis pIncoming : ℕ}

variable (w pThis pIncoming) in
theorem crossed_le_this : (crossed w pThis pIncoming).toNat ≤ (w.mem pThis).leaves := by
  rw [crossed_toNat]
  exact min_le_right _ _

variable (w pThis pIncoming) in
theorem crossed_le_incoming :
    (crossed w pThis pIncoming).toNat ≤ (w.mem pIncoming).leaves := by
  rw [crossed_toNat]
  exact min_le_left _ _

theorem tradedMem_this :
    tradedMem w pThis pIncoming pThis
      = (w.mem pThis).crossQty (crossed w pThis pIncoming) := by
  simp [tradedMem]

theorem tradedMem_incoming (h : pThis ≠ pIncoming) :
    tradedMem w pThis pIncoming pIncoming
      = (w.mem pIncoming).crossQty (crossed w pThis pIncoming) := by
  simp [tradedMem, Function.update_of_ne h.symm]

theorem tradedMem_of_ne {p : ℕ} (h1 : p ≠ pThis) (h2 : p ≠ pIncoming) :
    tradedMem w pThis pIncoming p = w.mem p := by
  simp [tradedMem, h1, h2]

variable (w pThis pIncoming) in
@[simp] theorem tradedMem_toOrderLine (p : ℕ) :
    (tradedMem w pThis pIncoming p).toOrderLine = (w.mem p).toOrderLine := by
  by_cases h1 : p = pThis
  · simp [h1, tradedMem_this]
  · by_cases h2 : p = pIncoming
    · subst h2
      simp [tradedMem_incoming (Ne.symm h1)]
    · rw [tradedMem_of_ne h1 h2]

@[simp] theorem tradedMem_line (p : ℕ) :
    (tradedMem w pThis pIncoming p).line = (w.mem p).line := by
  by_cases h1 : p = pThis
  · simp [h1, tradedMem_this]
  · by_cases h2 : p = pIncoming
    · subst h2
      simp [tradedMem_incoming (Ne.symm h1)]
    · rw [tradedMem_of_ne h1 h2]

variable (w pThis pIncoming) in
theorem tradedMem_leaves_this :
    (tradedMem w pThis pIncoming pThis).leaves
      = (w.mem pThis).leaves - (crossed w pThis pIncoming).toNat := by
  rw [tradedMem_this, OrderEntry.crossQty_leaves (crossed_le_this _ _ _)]

theorem tradedMem_leaves_incoming (h : pThis ≠ pIncoming) :
    (tradedMem w pThis pIncoming pIncoming).leaves
      = (w.mem pIncoming).leaves - (crossed w pThis pIncoming).toNat := by
  rw [tradedMem_incoming h, OrderEntry.crossQty_leaves (crossed_le_incoming _ _ _)]

/-- **A trade empties one of the two orders.** -/
theorem tradedMem_empty (h : pThis ≠ pIncoming) :
    (tradedMem w pThis pIncoming pThis).leaves = 0 ∨
      (tradedMem w pThis pIncoming pIncoming).leaves = 0 := by
  rw [tradedMem_leaves_this, tradedMem_leaves_incoming h, crossed_toNat]
  omega

variable (w pThis pIncoming) in
/-- The report of a trade. -/
def crossReport : ReportEntry where
  id1 := (w.mem pIncoming).id
  id2 := (w.mem pThis).id
  mCrossQty := crossed w pThis pIncoming
  mCrossPrice := (w.mem pThis).price
  mOrderPtr1 := pIncoming
  mOrderPtr2 := pThis
  entry1 := tradedMem w pThis pIncoming pIncoming
  entry2 := tradedMem w pThis pIncoming pThis

/-- A report names the lines of its two orders. -/
theorem crossReport_names {n : ℕ} : (crossReport w pThis pIncoming).names n = true ↔
    (w.mem pIncoming).line = some n ∨ (w.mem pThis).line = some n := by
  rw [ReportEntry.names, Bool.or_eq_true, decide_eq_true_eq, decide_eq_true_eq, crossReport,
    tradedMem_line, tradedMem_line]

variable (s : Side)

theorem matchEntry_fst : (matchEntry s pThis pIncoming w).1 = crossed w pThis pIncoming := by
  rw [matchEntry_eq]
  rfl

@[simp] theorem matchEntry_book : (matchEntry s pThis pIncoming w).2.book = w.book := by
  rw [matchEntry_eq]
  rfl

@[simp] theorem matchEntry_endReads :
    (matchEntry s pThis pIncoming w).2.endReads = w.endReads := by
  rw [matchEntry_eq]
  rfl

theorem matchEntry_calls : (matchEntry s pThis pIncoming w).2.calls
    = w.calls ++ [⟨s, pThis, pIncoming, w.toExchange⟩] := by
  rw [matchEntry_eq]
  rfl

theorem matchEntry_mem (h : pThis ≠ pIncoming) :
    (matchEntry s pThis pIncoming w).2.mem = tradedMem w pThis pIncoming := by
  rw [matchEntry_eq]
  simp only [matchEntryWith, World.updateAccount, World.addReport, World.setEntry, tradedMem,
    crossed]
  rw [Function.update_of_ne h]

theorem matchEntry_reports (h : pThis ≠ pIncoming) :
    (matchEntry s pThis pIncoming w).2.reports
      = w.reports ++ [crossReport w pThis pIncoming] := by
  rw [matchEntry_eq, crossReport, tradedMem_incoming h, tradedMem_this]
  simp only [matchEntryWith, World.updateAccount, World.addReport, World.setEntry, crossed]
  simp [Function.update_of_ne h, Function.update_of_ne h.symm, OrderEntry.crossQty]

end Trade

/-! ### The four steps -/

/-- One pass of the inner loop on the first order of level `i`. -/
def fillStep (s : Side) (i pThis pIncoming : ℕ) (w : World) : World :=
  let traded := matchEntry s pThis pIncoming w
  let w1 := traded.2.modifyGroup s i fun g =>
    { g with mLeavesQty := g.mLeavesQty - traded.1.toNat }
  if (w1.mem pThis).empty
    then w1.modifyGroup s i fun g => { g with mOrders := g.mOrders.eraseIdx 0 }
    else w1

variable (env : Platform)

/-- **The steps of a matching run** of the order in slot `pIncoming` against the
book of side `s`. -/
inductive MatchStep (s : Side) (pIncoming : ℕ) : World → World → Prop
  | sort {w pre key g post} (h : (w.book s).Split pre key g post) :
      MatchStep s pIncoming w (sortGroup env s pre.length w)
  | fill {w pre key g post r os} (h : (w.book s).Split pre key g post)
      (hg : g.mOrders = r :: os) (hne : r ≠ pIncoming)
      (hdead : ∀ e ∈ pre, e.2.mOrders = [])
      (hkey : ∀ r' ∈ os, (w.mem r').getKey env.normalRuleApply
        ≤ (w.mem r).getKey env.normalRuleApply)
      (hprice : cmp s (w.mem pIncoming).price key = false) :
      MatchStep s pIncoming w (fillStep s pre.length r pIncoming w)
  | drop {w pre key g post} (h : (w.book s).Split pre key g post)
      (hzero : g.mLeavesQty = 0) :
      MatchStep s pIncoming w (w.eraseGroup s pre.length)
  | readEnd {w} : MatchStep s pIncoming w { w with endReads := w.endReads + 1 }

/-- A sequence of steps. -/
abbrev MatchSteps (s : Side) (pIncoming : ℕ) : World → World → Prop :=
  Relation.ReflTransGen (MatchStep env s pIncoming)

/-- The slots a book refers to. -/
def ptrs {s : Side} (m : Levels s) : List ℕ := m.entries.flatMap fun e => e.2.mOrders

theorem ptrs_of_split {s : Side} {m : Levels s} {pre post : List (Price × OrderGroup)}
    {key : Price} {g : OrderGroup} (h : m.Split pre key g post) :
    ptrs m = pre.flatMap (fun e => e.2.mOrders) ++
      (g.mOrders ++ post.flatMap fun e => e.2.mOrders) := by
  rw [ptrs, show m.entries = _ from h]
  simp

section Steps

variable {env} {s : Side} {pIncoming : ℕ} {w : World} {pre post : List (Price × OrderGroup)}
  {key : Price} {g : OrderGroup}

variable (env) in
/-- Sorting changes the vector of one level, and nothing else. -/
theorem sortGroup_split (h : (w.book s).Split pre key g post) :
    ((sortGroup env s pre.length w).book s).Split pre key
      { g with mOrders := sortOrders env w.mem g.mOrders } post := by
  simpa [sortGroup, World.modifyGroup] using h.modifyAt _

theorem sortGroup_book_of_ne {s' : Side} (hs : s' ≠ s) (i : ℕ) :
    (sortGroup env s i w).book s' = w.book s' :=
  w.setBook_book_of_ne s _ hs

variable (env) in
theorem sortOrders_perm (mem : ℕ → OrderEntry) (l : List ℕ) :
    (sortOrders env mem l).Perm l :=
  env.sort.perm (StrictWeak.ofKeyDesc _) l

theorem sortOrders_sorted (mem : ℕ → OrderEntry) (l : List ℕ) :
    (sortOrders env mem l).Pairwise fun a b =>
      (mem b).getKey env.normalRuleApply ≤ (mem a).getKey env.normalRuleApply := by
  have h := env.sort.sorted
    (StrictWeak.ofKeyDesc fun p => (mem p).getKey env.normalRuleApply) l
  exact h.imp fun h => by simpa using h

variable {r : ℕ} {os : List ℕ}

/-- A fill is the trade, the new total of the level, and the erasure of the first
order if the trade emptied it. -/
theorem fillStep_eq (hne : r ≠ pIncoming) (i : ℕ) :
    fillStep s i r pIncoming w = (matchEntry s r pIncoming w).2.setBook s
      (if (tradedMem w r pIncoming r).leaves = 0 then
        ((w.book s).modifyAt i fun g =>
            { g with mLeavesQty := g.mLeavesQty - (crossed w r pIncoming).toNat }).modifyAt i
          fun g => { g with mOrders := g.mOrders.eraseIdx 0 }
      else
        (w.book s).modifyAt i fun g =>
          { g with mLeavesQty := g.mLeavesQty - (crossed w r pIncoming).toNat }) := by
  simp only [fillStep, World.modifyGroup, World.setBook_mem, matchEntry_mem s hne,
    OrderEntry.empty_iff, matchEntry_fst, matchEntry_book, World.setBook_book_self]
  by_cases hz : (tradedMem w r pIncoming r).leaves = 0
  · rw [if_pos hz, if_pos hz]
    simp [World.setBook]
  · rw [if_neg hz, if_neg hz]

/-- The book after a fill: the first order of the level stays only if quantity is
left on it. -/
theorem fillStep_split (h : (w.book s).Split pre key g post) (hg : g.mOrders = r :: os)
    (hne : r ≠ pIncoming) :
    ((fillStep s pre.length r pIncoming w).book s).Split pre key
      { g with
        mOrders := if (tradedMem w r pIncoming r).leaves = 0 then os else r :: os
        mLeavesQty := g.mLeavesQty - (crossed w r pIncoming).toNat } post := by
  have h1 := h.modifyAt fun g =>
    { g with mLeavesQty := g.mLeavesQty - (crossed w r pIncoming).toNat }
  rw [fillStep_eq hne, World.setBook_book_self]
  by_cases hz : (tradedMem w r pIncoming r).leaves = 0
  · rw [if_pos hz, if_pos hz]
    simpa [hg] using h1.modifyAt fun g => { g with mOrders := g.mOrders.eraseIdx 0 }
  · rw [if_neg hz, if_neg hz]
    simpa [hg] using h1

theorem fillStep_mem (hne : r ≠ pIncoming) (i : ℕ) :
    (fillStep s i r pIncoming w).mem = tradedMem w r pIncoming := by
  rw [fillStep_eq hne, World.setBook_mem, matchEntry_mem s hne]

theorem fillStep_book_of_ne (hne : r ≠ pIncoming) {s' : Side} (hs : s' ≠ s) (i : ℕ) :
    (fillStep s i r pIncoming w).book s' = w.book s' := by
  rw [fillStep_eq hne, World.setBook_book_of_ne _ _ _ hs, matchEntry_book]

theorem fillStep_endReads (hne : r ≠ pIncoming) (i : ℕ) :
    (fillStep s i r pIncoming w).endReads = w.endReads := by
  rw [fillStep_eq hne, World.setBook_endReads, matchEntry_endReads]

theorem fillStep_reports (hne : r ≠ pIncoming) (i : ℕ) :
    (fillStep s i r pIncoming w).reports = w.reports ++ [crossReport w r pIncoming] := by
  rw [fillStep_eq hne, World.setBook_reports, matchEntry_reports s hne]

theorem fillStep_calls (hne : r ≠ pIncoming) (i : ℕ) :
    (fillStep s i r pIncoming w).calls
      = w.calls ++ [⟨s, r, pIncoming, w.toExchange⟩] := by
  rw [fillStep_eq hne, World.setBook_calls, matchEntry_calls]

theorem fillStep_accounts (hne : r ≠ pIncoming) (i : ℕ) :
    (fillStep s i r pIncoming w).accounts = (matchEntry s r pIncoming w).2.accounts := by
  rw [fillStep_eq hne, World.setBook_accounts]

/-- Erasing a level. -/
theorem eraseGroup_entries (h : (w.book s).Split pre key g post) :
    ((w.eraseGroup s pre.length).book s).entries = pre ++ post := by
  simpa [World.eraseGroup] using h.eraseAt

/-- The other book is left alone. -/
theorem MatchStep.book_of_ne {w' : World} (h : MatchStep env s pIncoming w w') {s' : Side}
    (hs : s' ≠ s) : w'.book s' = w.book s' := by
  cases h with
  | sort h => exact sortGroup_book_of_ne hs _
  | fill h hg hne => exact fillStep_book_of_ne hne hs _
  | drop h => exact w.setBook_book_of_ne s _ hs
  | readEnd => rfl

/-- A step brings no order into the book, and none twice. -/
theorem MatchStep.ptrs_subperm {w' : World} (h : MatchStep env s pIncoming w w') :
    ∃ l, (ptrs (w'.book s)).Perm l ∧ l.Sublist (ptrs (w.book s)) := by
  cases h with
  | sort h =>
      refine ⟨_, ?_, List.Sublist.refl _⟩
      rw [ptrs_of_split (sortGroup_split _ h), ptrs_of_split h]
      exact (((sortOrders_perm _ _ _).append_right _)).append_left _
  | fill h hg hne hdead hkey hprice =>
      refine ⟨_, List.Perm.refl _, ?_⟩
      rw [ptrs_of_split (fillStep_split h hg hne), ptrs_of_split h, hg]
      refine List.Sublist.append_left (List.Sublist.append_right ?_ _) _
      dsimp only
      split
      · exact List.sublist_cons_self _ _
      · exact List.Sublist.refl _
  | drop h =>
      refine ⟨_, List.Perm.refl _, ?_⟩
      rw [ptrs, eraseGroup_entries h, ptrs_of_split h, List.flatMap_append]
      exact List.Sublist.append_left (List.sublist_append_right _ _) _
  | readEnd => exact ⟨_, List.Perm.refl _, List.Sublist.refl _⟩

theorem MatchStep.ptrs_subset {w' : World} (h : MatchStep env s pIncoming w w') :
    ptrs (w'.book s) ⊆ ptrs (w.book s) := by
  obtain ⟨l, hperm, hsub⟩ := h.ptrs_subperm
  exact fun p hp => hsub.subset (hperm.subset hp)

theorem MatchStep.ptrs_nodup {w' : World} (h : MatchStep env s pIncoming w w')
    (hnd : (ptrs (w.book s)).Nodup) : (ptrs (w'.book s)).Nodup := by
  obtain ⟨l, hperm, hsub⟩ := h.ptrs_subperm
  exact hperm.nodup_iff.mpr (hnd.sublist hsub)

/-- A step changes neither what an order is nor which line it came from. -/
theorem MatchStep.toOrderLine {w' : World} (h : MatchStep env s pIncoming w w') (p : ℕ) :
    (w'.mem p).toOrderLine = (w.mem p).toOrderLine ∧ (w'.mem p).line = (w.mem p).line := by
  cases h with
  | sort h => exact ⟨rfl, rfl⟩
  | fill h hg hne hdead hkey hprice => rw [fillStep_mem hne]; simp
  | drop h => exact ⟨rfl, rfl⟩
  | readEnd => exact ⟨rfl, rfl⟩

/-- A step adds no level. -/
theorem MatchStep.keys_sublist {w' : World} (h : MatchStep env s pIncoming w w') :
    ((w'.book s).entries.map Prod.fst).Sublist ((w.book s).entries.map Prod.fst) := by
  cases h with
  | @sort pre key g post h =>
      rw [show (w.book s).entries = _ from h,
        show ((sortGroup env s pre.length w).book s).entries = _ from sortGroup_split _ h]
      simp
  | @fill pre key g post r os h hg hne hdead hkey hprice =>
      rw [show (w.book s).entries = _ from h,
        show ((fillStep s pre.length r pIncoming w).book s).entries = _ from
          fillStep_split h hg hne]
      simp
  | drop h =>
      rw [show (w.book s).entries = _ from h, eraseGroup_entries h]
      simp
  | readEnd => exact List.Sublist.refl _

end Steps

end LinuxProgram.PrestoLabs
