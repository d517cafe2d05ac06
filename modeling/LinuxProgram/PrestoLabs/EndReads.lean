import LinuxProgram.PrestoLabs.Remainder
import LinuxProgram.PrestoLabs.AuctionCalls

/-!
# When `Book::match` looks past the book

`Book::match(OrderEntry*)` advances `BestOrderGroup` and compares its price before the
`while` tests it against `mOrderMap.end()`.  The key behind the last level is read when an
order has gone through every level and is still not filled.

* `LooksPast` — that situation, as a condition on the state before the call: the order
  accepts every level of a book that is not empty, and asks for more than is left there,
  or there is no order left at all.  The second case needs the levels without orders that
  the totals of the auction keep in the map.
* `matchOrder_endReads_iff` — a call reads the key of `end()` exactly then.
* `endReads_iff` — the runs of both rules that never read it.
-/

namespace LinuxProgram.PrestoLabs

open Lib

variable {env : Platform} {s : Side} {pIncoming : ℕ} {w w' : World}

/-- The book cannot fill the order: it has too little, or no order at all. -/
def CannotFill (s : Side) (pIncoming : ℕ) (w : World) : Prop :=
  restingQty w s (fun _ => true) < (w.mem pIncoming).leaves ∨ ptrs (w.book s) = []

/-- **The order goes past the book**, from the state the call is made in. -/
structure LooksPast (s : Side) (pIncoming : ℕ) (w : World) : Prop where
  levels : (w.book s).entries ≠ []
  accepts : ∀ e ∈ (w.book s).entries, cmp s (w.mem pIncoming).price e.1 = false
  short : CannotFill s pIncoming w

/-! ### One level -/

section Level

variable {pre post : List (Price × OrderGroup)} {key : Price} {g : OrderGroup}

/-- `OrderGroup::match` fills no order on a level without orders. -/
theorem matchGroup_nil (h : (w.book s).Split pre key g post) (hg : g.mOrders = []) :
    (matchGroup env s pre.length pIncoming w).1 = false := by
  have hsplit := sortGroup_split env h
  have hnil : sortOrders env w.mem g.mOrders = [] := by
    rw [hg]
    exact List.perm_nil.mp (sortOrders_perm env w.mem [])
  rw [hnil] at hsplit
  simp [matchGroup, World.group?_of_split _ s hsplit, matchGroupLoop]

/-- An order without quantity is filled by the first order of a level. -/
theorem matchGroup_zero (h : (w.book s).Split pre key g post) (hg : g.mOrders ≠ [])
    (hnotin : pIncoming ∉ g.mOrders) (hzero : (w.mem pIncoming).leaves = 0) :
    (matchGroup env s pre.length pIncoming w).1 = true := by
  have hsplit := sortGroup_split env h
  have hperm := sortOrders_perm env w.mem g.mOrders
  obtain ⟨r, os, hsorted⟩ := List.exists_cons_of_ne_nil fun hnil =>
    hg (List.nil_perm.mp (hnil ▸ hperm))
  have hne : r ≠ pIncoming := by
    rintro rfl
    exact hnotin (hperm.subset (by simp [hsorted]))
  have hlen : (((sortGroup env s pre.length w).group? s pre.length).map fun g =>
      g.mOrders.length).getD 0 = os.length + 1 := by
    simp [World.group?_of_split _ s hsplit, hsorted]
  have hleaves : ((fillStep s pre.length r pIncoming (sortGroup env s pre.length w)).mem
      pIncoming).leaves = 0 := by
    rw [fillStep_mem hne]
    exact Nat.le_zero.mp ((tradedMem_leaves_le pIncoming).trans_eq hzero)
  simp only [matchGroup, hlen]
  rw [matchGroupLoop_cons hsplit hsorted hne, if_pos hleaves]

end Level

/-! ### The loop -/

section Loop

variable {pre pre' post : List (Price × OrderGroup)} {key : Price} {g : OrderGroup}
  {filled : Bool}

/-- Whether a pass fills the order is what `OrderGroup::match` answers. -/
theorem LoopPass.filled_eq (h : LoopPass env s pIncoming pre key g post w filled pre' w') :
    filled = (matchGroup env s pre.length pIncoming w).1 :=
  (congrArg Prod.fst h.eq).symm

/-- A pass that does not fill the order, from a level with orders, leaves quantity on
it. -/
theorem LoopPass.leaves_ne (h : LoopPass env s pIncoming pre key g post w false pre' w')
    (hg : g.mOrders ≠ []) : (w'.mem pIncoming).leaves ≠ 0 := by
  refine h.run.unfilled rfl fun hzero => ?_
  have hfull : (matchGroup env s pre.length pIncoming w).1 = true :=
    matchGroup_zero h.head.levels hg h.notin hzero
  rw [← h.filled_eq] at hfull
  exact Bool.false_ne_true hfull

theorem ptrs_eq_nil {m : Levels s} : ptrs m = [] ↔ ∀ e ∈ m.entries, e.2.mOrders = [] :=
  List.flatMap_eq_nil_iff

/-- A pass that does not fill the order leaves the question open. -/
theorem LoopPass.cannotFill_iff (h : LoopPass env s pIncoming pre key g post w false pre' w')
    (hI : BookInv w) (hside : (w.mem pIncoming).side = s.opposite) :
    CannotFill s pIncoming w' ↔ CannotFill s pIncoming w := by
  have hcons := MatchSteps.conserves h.run.steps hI hside
  have hentries : (w'.book s).entries = pre' ++ post := h.run.entries
  have hsub := (MatchSteps.frame h.run.steps).1
  dsimp only at hcons hsub
  constructor
  · rintro (hless | hnil)
    · exact .inl (by omega)
    · rw [ptrs_eq_nil] at hnil
      by_cases hg : g.mOrders = []
      · refine .inr (ptrs_eq_nil.mpr ?_)
        rw [h.head.levels, List.forall_mem_append, List.forall_mem_cons]
        exact ⟨h.head.passed, hg, fun e he => hnil e (by rw [hentries]; simp [he])⟩
      · have hleft := h.leaves_ne hg
        rw [restingQty_eq_zero fun e he _ => hnil e he] at hcons
        exact .inl (by omega)
  · rintro (hless | hnil)
    · exact .inl (by omega)
    · exact .inr (List.subset_nil.mp (hnil ▸ hsub))

/-- A pass that fills the order: the book could. -/
theorem LoopPass.not_cannotFill (h : LoopPass env s pIncoming pre key g post w true pre' w')
    (hI : BookInv w) (hside : (w.mem pIncoming).side = s.opposite) :
    ¬ CannotFill s pIncoming w := by
  have hcons := MatchSteps.conserves h.run.steps hI hside
  have hzero := h.run.filled rfl
  dsimp only at hcons hzero
  rintro (hless | hnil)
  · omega
  · have hg := ptrs_eq_nil.mp hnil (key, g) (by rw [h.head.levels]; simp)
    have hfilled := h.filled_eq
    rw [matchGroup_nil h.head.levels hg] at hfilled
    exact Bool.noConfusion hfilled

/-- **What the loop reads**, from the levels it starts in front of. -/
theorem matchLevels_endReads {rest : List (Price × OrderGroup)} (hne : rest ≠ [])
    (h : LoopHead s pIncoming pre rest w) (hI : BookInv w)
    (hside : (w.mem pIncoming).side = s.opposite) :
    (matchLevels env s pIncoming rest.length pre.length w).2.endReads ≠ w.endReads ↔
      (∀ e ∈ rest, cmp s (w.mem pIncoming).price e.1 = false) ∧ CannotFill s pIncoming w := by
  refine matchLevels_rule env s pIncoming
    (fun rest w r => BookInv w → (w.mem pIncoming).side = s.opposite →
      (r.2.endReads ≠ w.endReads ↔
        (∀ e ∈ rest, cmp s (w.mem pIncoming).price e.1 = false) ∧ CannotFill s pIncoming w))
    (fun h hI hside => ?_) (fun h hI hside => ?_) (fun h hcmp hI hside => ?_)
    (fun h hhead ih hI hside => ?_) rest hne h hI hside
  · exact iff_of_false (not_not_intro h.run.endReads) fun hP => h.not_cannotFill hI hside hP.2
  · -- the iterator is `end()`, and none of the levels has an order left
    have hentries := h.run.entries
    have hreads := h.run.endReads
    dsimp only at hentries hreads ⊢
    refine iff_of_true (by omega) ⟨?_, (h.cannotFill_iff hI hside).mp (.inr ?_)⟩
    · rw [List.forall_mem_singleton]
      exact h.head.accepts _ rfl
    · rw [ptrs_eq_nil, hentries, List.append_nil]
      exact h.run.dead rfl
  · refine iff_of_false (not_not_intro h.run.endReads) fun hP => ?_
    have haccepts := hP.1 _ (List.mem_cons_of_mem _ List.mem_cons_self)
    rw [← h.price_eq, hcmp] at haccepts
    exact Bool.noConfusion haccepts
  · have hsteps := h.run.steps
    have hreads := h.run.endReads
    dsimp only at hsteps hreads
    have hrest := ih (MatchSteps.bookInv hsteps hside hI)
      ((MatchSteps.side_eq hsteps pIncoming).trans hside)
    rw [hreads, h.price_eq, h.cannotFill_iff hI hside] at hrest
    rw [hrest]
    exact ⟨fun hP => ⟨List.forall_mem_cons.mpr ⟨h.head.accepts _ rfl, hP.1⟩, hP.2⟩,
      fun hP => ⟨(List.forall_mem_cons.mp hP.1).2, hP.2⟩⟩

variable (env) in
/-- **A call of `Book::match` reads the key of `end()` exactly when the order goes past
the book.** -/
theorem matchOrder_endReads_iff (hI : BookInv w) (hside : (w.mem pIncoming).side = s.opposite) :
    (matchOrder env s pIncoming w).2.endReads ≠ w.endReads ↔ LooksPast s pIncoming w := by
  unfold matchOrder
  cases hlevels : (w.book s).entries with
  | nil => exact iff_of_false (not_not_intro rfl) fun h => h.levels hlevels
  | cons e rest =>
      obtain ⟨best, g⟩ := e
      dsimp only
      by_cases hcmp : cmp s (w.mem pIncoming).getPrice best = true
      · rw [if_pos hcmp]
        refine iff_of_false (not_not_intro rfl) fun h => ?_
        have haccepts := h.accepts (best, g) (by simp [hlevels])
        exact Bool.noConfusion (hcmp.symm.trans haccepts)
      · rw [if_neg hcmp]
        have hhead := loopHead_first hlevels (hI.nodup s) (hI.notMem_ptrs hside)
          (Bool.eq_false_iff.mpr hcmp)
        refine (matchLevels_endReads (List.cons_ne_nil _ _) hhead hI hside).trans ?_
        rw [← hlevels]
        exact ⟨fun h => ⟨by simp [hlevels], h.1, h.2⟩, fun h => ⟨h.accepts, h.short⟩⟩

end Loop

/-! ### Both rules -/

theorem MatchRun.endReads_le {r : Bool × World} (h : MatchRun env s pIncoming w r) :
    w.endReads ≤ r.2.endReads := by
  obtain ⟨b, w'⟩ := r
  cases h.outcome with
  | filled _ hreads => exact hreads.ge
  | noBook _ hsame => rw [hsame]
  | stopped _ _ _ hreads => exact hreads.ge
  | exhausted _ _ _ hreads => exact hreads.ge.trans' (Nat.le_succ _)

section Normal

variable {lines : List OrderLine} {st : Session}

/-- What a line adds to the reads. -/
theorem SessionInv.line_endReads (h : SessionInv lines st) (o : OrderLine) :
    (normalLine env st o).endReads = 0 ↔ st.endReads = 0 ∧
      (o.qty ≠ 0 → ¬ LooksPast o.side.opposite st.index (st.construct o)) := by
  have hreads : ∀ {full w}, o.qty ≠ 0 →
      matchOrder env o.side.opposite st.index (st.construct o) = (full, w) →
      (w.endReads = 0 ↔ st.endReads = 0 ∧
        (o.qty ≠ 0 → ¬ LooksPast o.side.opposite st.index (st.construct o))) := by
    intro full w hqty hmatch
    have hle := (normalMatch_run env h o).endReads_le
    have hside : ((st.construct o).mem st.index).side = o.side.opposite.opposite := by
      simp [h.construct_self o]
    have hiff := matchOrder_endReads_iff env (h.construct_bookInv o) hside
    have hsame : (st.construct o).endReads = st.endReads := rfl
    rw [hmatch, hsame] at hle hiff
    dsimp only at hle hiff
    constructor
    · exact fun h0 => ⟨by omega, fun _ hpast => hiff.mpr hpast (by omega)⟩
    · exact fun ⟨h0, hnot⟩ => (not_not.mp (mt hiff.mp (hnot hqty))).trans h0
  obtain ⟨w, index, hcase, heq⟩ := normalLine_cases env h o
  rw [heq]
  cases hcase with
  | zero hqty => exact ⟨fun h0 => ⟨h0, fun hne => absurd hqty hne⟩, fun h0 => h0.1⟩
  | filled hqty hmatch => exact hreads hqty hmatch
  | rests hqty hmatch =>
      have hmatched := hreads hqty hmatch
      exact hmatched

/-- The calls of `Book::match` under the normal rule that do not look past the book. -/
theorem normal_endReads_iff (env : Platform) (lines : List OrderLine) :
    (processNormalOrders env lines).endReads = 0 ↔
      ∀ n o, lines[n]? = some o → o.qty ≠ 0 →
        ¬ LooksPast o.side.opposite (processNormalOrders env (lines.take n)).index
          ((processNormalOrders env (lines.take n)).construct o) := by
  induction lines using List.reverseRecOn with
  | nil => exact iff_of_true rfl fun n o hn => by simp at hn
  | append_singleton lines o ih =>
      rw [processNormalOrders, List.foldl_append]
      refine ((normal_sessionInv env lines).line_endReads o).trans ?_
      rw [ih]
      constructor
      · rintro ⟨hold, hnew⟩ n o' hn
        rcases getElem?_concat_cases hn with hn | ⟨rfl, rfl⟩
        · rw [List.take_append_of_le_length (List.getElem?_eq_some_iff.mp hn).1.le]
          exact hold n o' hn
        · rw [List.take_left]
          exact hnew
      · intro h
        refine ⟨fun n o' hn => ?_, ?_⟩
        · have hlt := (List.getElem?_eq_some_iff.mp hn).1
          have := h n o' (by rwa [List.getElem?_append_left hlt])
          rwa [List.take_append_of_le_length hlt.le] at this
        · have := h lines.length o (by simp)
          rwa [List.take_left] at this

end Normal

theorem auctionRead_endReads (lines : List OrderLine) : (auctionRead lines).endReads = 0 := by
  induction lines using List.reverseRecOn with
  | nil => rfl
  | append_singleton lines o ih =>
      rw [auctionRead, List.foldl_append]
      change (auctionLine (auctionRead lines) o).endReads = 0
      rw [auctionLine_eq (auctionRead_inv lines).toSessionInv]
      exact ih

theorem auction_endReads_iff (env : Platform) (lines : List OrderLine) :
    (processAuctionOrders env lines).endReads = 0 ↔
      ∀ c ∈ auctionCalls env lines, ¬ LooksPast .SELL c.1 c.2 := by
  have hpass := passCalls_rule env (targetPrice (auctionOpen lines))
    (fun w calls w' => w.endReads ≤ w'.endReads ∧
      (w'.endReads = w.endReads ↔ ∀ c ∈ calls, ¬ LooksPast .SELL c.1 c.2))
    (fun w => ⟨le_rfl, iff_of_true rfl (List.forall_mem_nil _)⟩)
    (fun {p w calls w'} hcall hrest => ?_) (fun _ _ h => h)
    (fun {w calls w' calls' w''} h h' => ?_) _ (auctionRestored_inv lines)
    (List.nil_append _).symm rfl
  · have hstart : (auctionRestored lines).endReads = 0 := auctionRead_endReads lines
    have hiff := hpass.2
    rw [hstart] at hiff
    exact hiff
  · have hle := (hcall.run env).endReads_le
    have hside : (w.mem p).side = Side.SELL.opposite := hcall.buy
    have hiff := not_iff_not.mpr (matchOrder_endReads_iff env hcall.toBookInv hside)
    rw [not_not] at hiff
    rw [List.forall_mem_cons, ← hrest.2, ← hiff]
    exact ⟨hle.trans hrest.1, by omega⟩
  · rw [List.forall_mem_append, ← h.2, ← h'.2]
    exact ⟨h.1.trans h'.1, by omega⟩

/-- **No key is read behind the last level exactly when no order goes past the book**,
under either rule. -/
theorem endReads_iff (env : Platform) (lines : List OrderLine) :
    ((processNormalOrders env lines).endReads = 0 ↔
      ∀ n o, lines[n]? = some o → o.qty ≠ 0 →
        ¬ LooksPast o.side.opposite (processNormalOrders env (lines.take n)).index
          ((processNormalOrders env (lines.take n)).construct o)) ∧
    ((processAuctionOrders env lines).endReads = 0 ↔
      ∀ c ∈ auctionCalls env lines, ¬ LooksPast .SELL c.1 c.2) :=
  ⟨normal_endReads_iff env lines, auction_endReads_iff env lines⟩

/-- Selling 1 and buying 2 at the same price: the only level is erased, and the loop reads
the key behind it. -/
theorem end_is_read : ¬ ∀ env lines, (processNormalOrders env lines).endReads = 0 := by
  intro h
  let line (id : String) (qty : Quantity) (side : Side) : OrderLine :=
    { id := id, party := "A", price := 10000, qty := qty, sequence := 1, side := side }
  have hread : (processNormalOrders default [line "1" 1 .SELL, line "2" 2 .BUY]).endReads = 1 := by
    decide
  exact absurd ((h default _).symm.trans hread) (by decide)

end LinuxProgram.PrestoLabs
