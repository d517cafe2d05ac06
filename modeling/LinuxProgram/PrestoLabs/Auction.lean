import LinuxProgram.Lib.Agents
import LinuxProgram.PrestoLabs.Engine

/-!
# The auction as an engine run

`ProcessAuctionOrders` reads all lines into the books, replaces the totals of
both books by prefix sums, and in its second pass matches the buy orders, best
price first, against the sell book.

* `ReadInv` — the state of the reading loop: order `n` is in slot `n`, in the
  book of its side, and the totals of every level are exact.  `lineQty` is what
  the lines ask for, and the totals of the levels add up to it.
* `OpenInv` — the state after `consolidateQty`: the total of a level is what the
  lines ask for at its price or better.
* `secondPass_rule` — the induction over the second pass, for an arbitrary
  invariant; `auction_run` is its first use.
-/

namespace LinuxProgram.PrestoLabs

open Lib

variable {env : Platform}

/-! ### Reading the lines

The loop adds every order to the book of its side and matches nothing, so behind it the books are
the lines, sorted into levels.  An order of a book is what its line says, and the total of a level
is what the lines at its price ask for. -/

/-- The quantity the lines of side `s` ask for at the prices in `φ`. -/
def lineQty (lines : List OrderLine) (s : Side) (φ : Price → Bool) : ℕ :=
  ((lines.filter fun o => o.side = s && φ o.price).map fun o => o.qty.toNat).sum

theorem lineQty_concat (lines : List OrderLine) (o : OrderLine) (s : Side) (φ : Price → Bool) :
    lineQty (lines ++ [o]) s φ =
      lineQty lines s φ + if o.side = s ∧ φ o.price then o.qty.toNat else 0 := by
  simp only [lineQty, List.filter_append, List.map_append, List.sum_append]
  by_cases h : o.side = s ∧ φ o.price = true
  · simp [h]
  · rw [if_neg h, List.filter_cons_of_neg (by simpa using h)]
    simp

/-- **The invariant of the reading loop**, in which nothing is matched: the order of each line is in
its slot and in the book of its side with its whole quantity, and the totals of the levels are what
the lines ask for at their prices. -/
structure ReadInv (lines : List OrderLine) (st : Session) : Prop
    extends SessionInv lines st where
  index : st.index = lines.length
  slot : ∀ n o, lines[n]? = some o →
    st.mem n = OrderEntry.ofLine n o ∧ n ∈ ptrs (st.book o.side)
  fresh : ∀ s, ∀ p ∈ ptrs (st.book s), (st.mem p).leaves = (st.mem p).qty.toNat
  exact : ∀ s, ∀ e ∈ (st.book s).entries,
    e.2.mTotalQty = leavesSum st.mem e.2.mOrders ∧
      e.2.mLeavesQty = leavesSum st.mem e.2.mOrders
  total : ∀ s φ, SortedMap.sumWhere φ OrderGroup.mTotalQty (st.book s).entries
    = lineQty lines s φ
  noReports : st.reports = []
  noCalls : st.calls = []

theorem readInv_default : ReadInv [] default where
  toSessionInv := sessionInv_default
  index := rfl
  slot n o h := by simp at h
  fresh s p hp := by simp [ptrs, show (default : Session).book s = SortedMap.empty from rfl] at hp
  exact s e he := by simp [show (default : Session).book s = SortedMap.empty from rfl] at he
  total s φ := by simp [show (default : Session).book s = SortedMap.empty from rfl, lineQty]
  noReports := rfl
  noCalls := rfl

section Read

variable {lines : List OrderLine} {st : Session}

/-- The state after the order of a line was added to the book of its side. -/
def Session.added (st : Session) (o : OrderLine) : World :=
  (st.construct o).addOrder o.side ((st.construct o).mem st.index).getPrice st.index

/-- The two branches of the reading loop are one: add the order to the book of its
side. -/
theorem auctionLine_eq (h : SessionInv lines st) (o : OrderLine) :
    auctionLine st o = { st.added o with index := st.index + 1, lineNo := st.lineNo + 1 } := by
  have hbuy : (((st.construct o).mem st.index).isBuy = true) ↔ o.side = .BUY := by
    rw [h.construct_self, OrderEntry.isBuy, decide_eq_true_eq]
    rfl
  simp only [auctionLine, hbuy, Session.added]
  cases hs : o.side
  · rw [if_pos rfl]
  · rw [if_neg (by decide)]

theorem mem_ptrs_added {o : OrderLine} {s : Side} {p : ℕ} :
    p ∈ ptrs ((st.added o).book s) ↔ (s = o.side ∧ p = st.index) ∨ p ∈ ptrs (st.book s) :=
  mem_ptrs_addOrder

/-- What adding an order to exact books leaves. -/
theorem exact_addOrder {w : World} {s : Side} {p : ℕ} {price : Price}
    (hfresh : (w.mem p).leaves = (w.mem p).qty.toNat)
    (hex : ∀ s', ∀ e ∈ (w.book s').entries, e.2.mTotalQty = leavesSum w.mem e.2.mOrders ∧
      e.2.mLeavesQty = leavesSum w.mem e.2.mOrders) (s' : Side) :
    ∀ e ∈ ((w.addOrder s price p).book s').entries,
      e.2.mTotalQty = leavesSum w.mem e.2.mOrders ∧
        e.2.mLeavesQty = leavesSum w.mem e.2.mOrders := by
  intro e he
  by_cases hs : s' = s
  · subst hs
    rcases mem_addOrder he with he | ⟨g, rfl, hg⟩
    · exact hex _ e he
    · have hold : g.mTotalQty = leavesSum w.mem g.mOrders ∧
          g.mLeavesQty = leavesSum w.mem g.mOrders := by
        rcases hg with rfl | hg
        · simp
        · exact hex _ _ hg
      simp only [OrderEntry.leaves] at hfresh
      simp only [OrderGroup.addOrder, OrderEntry.getTotalQty, OrderEntry.getCurrentQty,
        leavesSum_append, leavesSum_cons, leavesSum_nil, OrderEntry.leaves, hold, hfresh]
      simp
  · rw [addOrder_book_of_ne hs] at he
    exact hex s' e he

namespace ReadInv

variable (h : ReadInv lines st) (o : OrderLine)

include h

theorem slot_added {n : ℕ} {o' : OrderLine} (hn : (lines ++ [o])[n]? = some o') :
    (st.added o).mem n = OrderEntry.ofLine n o' ∧ n ∈ ptrs ((st.added o).book o'.side) := by
  rw [Agents.getElem?_concat] at hn
  split at hn
  · rename_i hlast
    obtain rfl : o = o' := Option.some.inj hn
    rw [hlast, ← h.index]
    refine ⟨?_, mem_ptrs_added.mpr (.inl ⟨rfl, rfl⟩)⟩
    rw [h.index]
    exact h.index ▸ h.construct_self o
  · rename_i hlast
    obtain ⟨hm, hp⟩ := h.slot n o' hn
    refine ⟨?_, mem_ptrs_added.mpr (.inr hp)⟩
    exact (SessionInv.construct_of_ne o (by rwa [h.index])).trans hm

theorem fresh_added {s : Side} {p : ℕ} (hp : p ∈ ptrs ((st.added o).book s)) :
    ((st.added o).mem p).leaves = ((st.added o).mem p).qty.toNat := by
  change ((st.construct o).mem p).leaves = ((st.construct o).mem p).qty.toNat
  rcases mem_ptrs_added.mp hp with ⟨-, rfl⟩ | hp
  · rw [h.construct_self o]
    rfl
  · rw [SessionInv.construct_of_ne o (h.used s p hp).ne]
    exact h.fresh s p hp

theorem exact_added (s : Side) : ∀ e ∈ ((st.added o).book s).entries,
    e.2.mTotalQty = leavesSum (st.added o).mem e.2.mOrders ∧
      e.2.mLeavesQty = leavesSum (st.added o).mem e.2.mOrders := by
  refine exact_addOrder (by rw [h.construct_self o]; rfl) (fun s e he => ?_) s
  have hmem : leavesSum (st.construct o).mem e.2.mOrders = leavesSum st.mem e.2.mOrders := by
    refine leavesSum_congr fun p hp => congrArg OrderEntry.leaves (SessionInv.construct_of_ne o ?_)
    exact (h.used s p (List.mem_flatMap.mpr ⟨e, he, hp⟩)).ne
  rw [hmem]
  exact h.exact s e he

theorem total_added (s : Side) (φ : Price → Bool) :
    SortedMap.sumWhere φ OrderGroup.mTotalQty ((st.added o).book s).entries
      = lineQty (lines ++ [o]) s φ := by
  rw [lineQty_concat, ← h.total s φ, Session.added, h.construct_self o]
  by_cases hs : s = o.side
  · subst hs
    have hup := SortedMap.sumWhere_upsert φ OrderGroup.mTotalQty (st.book o.side) o.price {}
      (OrderGroup.addOrder st.index (OrderEntry.ofLine lines.length o)) rfl
      (x := o.qty.toNat) (fun _ => rfl)
    have hbook : ((st.construct o).addOrder o.side o.price st.index).book o.side
        = (st.book o.side).upsert o.price {}
          (OrderGroup.addOrder st.index (OrderEntry.ofLine lines.length o)) := by
      rw [World.addOrder, World.setBook_book_self, h.construct_self o]
      rfl
    refine (congrArg (fun m : Levels o.side => SortedMap.sumWhere φ _ m.entries) hbook).trans
      (hup.trans ?_)
    simp
  · rw [addOrder_book_of_ne hs, if_neg fun hφ => hs hφ.1.symm]
    rfl

end ReadInv

variable (env) in
/-- **One line of the reading loop** is an engine run and keeps the invariant. -/
theorem auctionLine_run (h : ReadInv lines st) (o : OrderLine) :
    EngineRun env st.toWorld (auctionLine st o).toWorld ∧
      ReadInv (lines ++ [o]) (auctionLine st o) := by
  have hslot := h.construct_free o o.side
  have hside : ((st.construct o).mem st.index).side = o.side := by
    rw [h.construct_self o]
    rfl
  rw [auctionLine_eq h.toSessionInv o]
  refine ⟨.tail (.single (h.construct_step _ o)) (.add hslot hside), ?_⟩
  exact {
    toSessionInv := h.after_construct o _ ((h.construct_bookInv o).addOrder hslot hside)
      (fun _ => ⟨rfl, rfl⟩)
      (fun s p hp => by
        rcases mem_ptrs_added.mp hp with ⟨-, rfl⟩ | hp
        · exact Nat.lt_succ_self _
        · exact (h.used _ p hp).trans (Nat.lt_succ_self _))
      fun r hr _ _ => .inl hr
    index := by simp [h.index]
    noReports := h.noReports
    noCalls := h.noCalls
    slot := fun _ _ hn => h.slot_added o hn
    fresh := fun _ _ hp => h.fresh_added o hp
    exact := h.exact_added o
    total := h.total_added o }

/-- An order in a book is what its line says. -/
theorem ReadInv.exists_line (h : ReadInv lines st) {s : Side} {p : ℕ}
    (hp : p ∈ ptrs (st.book s)) : ∃ o ∈ lines, st.mem p = OrderEntry.ofLine p o := by
  have hlt : p < lines.length := by
    rw [← h.index]
    exact h.used s p hp
  exact ⟨lines[p], List.getElem_mem hlt, (h.slot p _ (List.getElem?_eq_getElem hlt)).1⟩

theorem auctionRead_inv (lines : List OrderLine) : ReadInv lines (auctionRead lines) := by
  induction lines using List.reverseRecOn with
  | nil => exact readInv_default
  | append_singleton lines o ih =>
      rw [auctionRead, List.foldl_append]
      exact (auctionLine_run default ih o).2

theorem auctionRead_run (env : Platform) (lines : List OrderLine) :
    EngineRun env default (auctionRead lines).toWorld := by
  induction lines using List.reverseRecOn with
  | nil => exact .refl
  | append_singleton lines o ih =>
      rw [auctionRead, List.foldl_append]
      exact ih.trans (auctionLine_run _ (auctionRead_inv lines) o).1

end Read

/-! ### The totals of a level

`consolidateQty` and `restoreQty` write the totals of a book and leave its orders alone.  They
walk the levels with an accumulator, which is a sum over the levels that come first in the order
of the book. -/

section Totals

variable {s : Side}

/-- `consolidateQty` on the entries: the totals become prefix sums. -/
theorem mem_scanList_consolidate {e : Price × OrderGroup} :
    ∀ {l : List (Price × OrderGroup)} {acc : ℕ},
      e ∈ SortedMap.scanList OrderGroup.consolidateGroupQty acc l →
      ∃ pre g post, l = pre ++ (e.1, g) :: post ∧
        e.2 = { g with mTotalQty := acc + (pre.map fun e => e.2.mTotalQty).sum + g.mTotalQty } := by
  intro l
  induction l with
  | nil => intro acc he; simp [SortedMap.scanList] at he
  | cons x l ih =>
      intro acc he
      rcases List.mem_cons.mp he with rfl | he
      · exact ⟨[], x.2, l, rfl, by simp [OrderGroup.consolidateGroupQty, Nat.add_comm]⟩
      · obtain ⟨pre, g, post, hl, hg⟩ := ih he
        refine ⟨x :: pre, g, post, by rw [hl]; rfl, ?_⟩
        rw [hg]
        simp only [OrderGroup.consolidateGroupQty, List.map_cons, List.sum_cons,
          OrderGroup.mk.injEq, true_and, and_true]
        omega

/-- **`consolidateQty`**: the total of a level becomes the sum of the totals of the
levels that are not worse. -/
theorem mem_consolidateQty {m : Levels s} {e : Price × OrderGroup}
    (he : e ∈ (consolidateQty m).entries) :
    ∃ g, (e.1, g) ∈ m.entries ∧
      e.2 = { g with
        mTotalQty :=
          SortedMap.sumWhere (fun k => !cmp s e.1 k) OrderGroup.mTotalQty m.entries } := by
  obtain ⟨pre, g, post, hl, hg⟩ := mem_scanList_consolidate he
  have hsplit : m.Split pre e.1 g post := hl
  refine ⟨g, hsplit.mem, ?_⟩
  rw [hg, hsplit.sumWhere_notAfter, Nat.zero_add]

theorem scanList_orders (f : OrderGroup → ℕ → OrderGroup × ℕ)
    (hf : ∀ g n, (f g n).1.mOrders = g.mOrders) (acc : ℕ) (l : List (Price × OrderGroup)) :
    (SortedMap.scanList f acc l).map (fun e => (e.1, e.2.mOrders))
      = l.map fun e => (e.1, e.2.mOrders) := by
  induction l generalizing acc with
  | nil => rfl
  | cons e l ih => simp [SortedMap.scanList, ih, hf]

theorem sameOrders_consolidateQty (m : Levels s) : SameOrders m (consolidateQty m) :=
  scanList_orders _ (fun _ _ => rfl) _ _

theorem sameOrders_restoreQty (m : Levels s) : SameOrders m (restoreQty m) :=
  scanList_orders _ (fun _ _ => rfl) _ _

theorem mem_restoreQty {m : Levels s} {e : Price × OrderGroup}
    (he : e ∈ (restoreQty m).entries) : ∃ g, (e.1, g) ∈ m.entries ∧ e.2 = g.restoreGroupQty := by
  have hscan : ∀ (l : List (Price × OrderGroup)) (acc : ℕ),
      SortedMap.scanList (fun g sumQty => (OrderGroup.restoreGroupQty g, sumQty)) acc l
        = l.map fun e => (e.1, e.2.restoreGroupQty) := by
    intro l
    induction l with
    | nil => exact fun _ => rfl
    | cons e l ih => exact fun acc => by simp [SortedMap.scanList, ih]
  have hentries : (restoreQty m).entries = m.entries.map fun e => (e.1, e.2.restoreGroupQty) :=
    hscan _ _
  rw [hentries] at he
  obtain ⟨e', he', rfl⟩ := List.mem_map.mp he
  exact ⟨e'.2, he', rfl⟩

/-- Rewriting totals moves no quantity. -/
theorem SameOrders.restingQty_eq {w : World} {m : Levels s} (h : SameOrders (w.book s) m)
    (φ : Price → Bool) :
    SortedMap.sumWhere φ (fun g => leavesSum w.mem g.mOrders) m.entries = restingQty w s φ := by
  have hmap : ∀ l : List (Price × OrderGroup),
      SortedMap.sumWhere φ (fun g => leavesSum w.mem g.mOrders) l
        = SortedMap.sumWhere φ (leavesSum w.mem) (l.map fun e => (e.1, e.2.mOrders)) := by
    intro l
    induction l with
    | nil => rfl
    | cons e l ih => simp [ih]
  rw [restingQty, hmap, hmap, h]

end Totals

/-! ### The opened books -/

/-- **The state between the two passes' preparations**: what `consolidateQty`
leaves. -/
structure OpenInv (lines : List OrderLine) (w : World) : Prop extends BookInv w where
  slot : ∀ n o, lines[n]? = some o →
    w.mem n = OrderEntry.ofLine n o ∧ n ∈ ptrs (w.book o.side)
  fresh : ∀ s, ∀ p ∈ ptrs (w.book s), (w.mem p).leaves = (w.mem p).qty.toNat
  /-- the total of a level is what the lines ask for at its price or better -/
  prefixTotal : ∀ s, ∀ e ∈ (w.book s).entries,
    e.2.mTotalQty = lineQty lines s fun k => !cmp s e.1 k
  resting : ∀ s φ, restingQty w s φ = lineQty lines s φ
  noReports : w.reports = []
  noCalls : w.calls = []

section Open

variable {lines : List OrderLine}

theorem ReadInv.resting {st : Session} (h : ReadInv lines st) (s : Side) (φ : Price → Bool) :
    restingQty st.toWorld s φ = lineQty lines s φ := by
  rw [← h.total s φ, restingQty]
  exact SortedMap.sumWhere_congr _ _ fun e he _ => ((h.exact s e he).1).symm

@[simp] theorem auctionOpen_book (lines : List OrderLine) (s : Side) :
    (auctionOpen lines).book s = consolidateQty ((auctionRead lines).book s) := by
  cases s <;> simp [auctionOpen, World.setBook_book_of_ne]

variable (env) in
/-- The running totals are untouched by `consolidateQty`. -/
theorem BookInv.consolidate_step {w : World} (h : BookInv w) (s : Side) :
    EngineStep env w (w.setBook s (consolidateQty (w.book s))) := by
  refine .retotal (sameOrders_consolidateQty _) fun e he => ?_
  obtain ⟨g, hg, heq⟩ := mem_consolidateQty he
  rw [heq]
  exact h.bound s _ hg

theorem auctionOpen_run (env : Platform) (lines : List OrderLine) :
    EngineRun env default (auctionOpen lines) := by
  have hread := auctionRead_inv lines
  have hbuy := hread.toBookInv.consolidate_step env .BUY
  exact ((auctionRead_run env lines).tail hbuy).tail
    ((hbuy.bookInv hread.toBookInv).consolidate_step _ .SELL)

theorem auctionOpen_inv (lines : List OrderLine) : OpenInv lines (auctionOpen lines) := by
  have hread := auctionRead_inv lines
  have hmem : (auctionOpen lines).mem = (auctionRead lines).mem := rfl
  exact {
    toBookInv := (auctionOpen_run default lines).bookInv bookInv_default
    slot := fun n o hn => by
      rw [hmem, auctionOpen_book, (sameOrders_consolidateQty _).ptrs_eq]
      exact hread.slot n o hn
    fresh := fun s p hp => by
      rw [auctionOpen_book, (sameOrders_consolidateQty _).ptrs_eq] at hp
      exact hread.fresh s p hp
    prefixTotal := fun s e he => by
      rw [auctionOpen_book] at he
      obtain ⟨g, -, heq⟩ := mem_consolidateQty he
      rw [heq, ← hread.total]
    resting := fun s φ => by
      rw [← hread.resting s φ, restingQty, auctionOpen_book, hmem]
      exact (sameOrders_consolidateQty _).restingQty_eq φ
    noReports := hread.noReports
    noCalls := hread.noCalls }

end Open

/-! ### The second pass -/

section SecondPass

variable {target : Price}

variable (env) in
/-- The matching of a list of buy orders keeps `BookInv` and is an engine run; it
leaves the buy book alone. -/
theorem matchBuyOrders_run : ∀ {orders : List ℕ} {w : World}, BookInv w →
    (∀ p ∈ orders, (w.mem p).side = .BUY) →
    EngineRun env w (matchBuyOrders env orders w) ∧
      (matchBuyOrders env orders w).book .BUY = w.book .BUY ∧
      ∀ p, ((matchBuyOrders env orders w).mem p).toOrderLine = (w.mem p).toOrderLine := by
  intro orders
  induction orders with
  | nil => exact fun _ _ => ⟨.refl, rfl, fun _ => rfl⟩
  | cons p orders ih =>
      intro w hI hside
      have hp : (w.mem p).side = Side.SELL.opposite := hside p List.mem_cons_self
      have hrun := (hI.matchOrder_run env hp).steps
      have hframe := MatchSteps.frame hrun
      obtain ⟨htail, hbook, hline⟩ := ih (MatchSteps.bookInv hrun hp hI) fun q hq => by
        rw [(hframe.2.2.1 q).1]
        exact hside q (List.mem_cons_of_mem _ hq)
      exact ⟨(MatchSteps.engineRun hrun hp).trans htail,
        hbook.trans (hframe.2.2.2 .BUY (by decide)),
        fun q => (hline q).trans (hframe.2.2.1 q).1⟩

/-- The body of the second pass on one level. -/
def passLevel (env : Platform) (i : ℕ) (g : OrderGroup) (w : World) : World :=
  matchBuyOrders env (sortOrders env w.mem g.mOrders) (sortGroup env .BUY i w)

theorem secondPass_succ {w : World} {pre post : List (Price × OrderGroup)} {price : Price}
    {g : OrderGroup} (h : (w.book .BUY).Split pre price g post) (n : ℕ) :
    secondPass env target (n + 1) pre.length w =
      if target > price then w
      else secondPass env target n (pre.length + 1) (passLevel env pre.length g w) := by
  have hget : (w.book .BUY).entries[pre.length]? = some (price, g) := by
    rw [show (w.book .BUY).entries = _ from h]
    simp
  rw [secondPass, hget]
  simp only [passLevel, World.group?_of_split _ _ (sortGroup_split env h),
    Option.map_some, Option.getD_some]

variable (env) in
/-- What one level of the second pass does, whatever it matches. -/
theorem passLevel_run {w : World} {pre post : List (Price × OrderGroup)} {price : Price}
    {g : OrderGroup} (hI : BookInv w) (h : (w.book .BUY).Split pre price g post) :
    EngineRun env w (passLevel env pre.length g w) ∧
      ((passLevel env pre.length g w).book .BUY).Split pre price
        { g with mOrders := sortOrders env w.mem g.mOrders } post := by
  have hside : ∀ p ∈ sortOrders env w.mem g.mOrders,
      ((sortGroup env .BUY pre.length w).mem p).side = .BUY := fun p hp =>
    (hI.own .BUY _ h.mem p ((sortOrders_perm _ _ _).subset hp)).1
  obtain ⟨hrun, hbook, -⟩ := matchBuyOrders_run env (hI.sort _ h) hside
  refine ⟨.head (.sort h) hrun, ?_⟩
  rw [passLevel, hbook]
  exact sortGroup_split _ h

variable (env target) in
/-- **The induction over the second pass.**  An invariant `I` of the levels passed
and the state, kept by every level not below the target price, holds at the end
with the levels not below the target price passed. -/
theorem secondPass_rule (I : List (Price × OrderGroup) → World → Prop)
    (hlevel : ∀ {pre price g post w}, BookInv w → (w.book .BUY).Split pre price g post →
      ¬ target > price → I pre w →
      I (pre ++ [(price, { g with mOrders := sortOrders env w.mem g.mOrders })])
        (passLevel env pre.length g w)) :
    ∀ (n : ℕ) {w : World} {pre post : List (Price × OrderGroup)}, BookInv w →
      (w.book .BUY).entries = pre ++ post → post.length = n → I pre w →
      ∃ pre' post', ((secondPass env target n pre.length w).book .BUY).entries = pre' ++ post' ∧
        (∀ e ∈ post'.head?, target > e.1) ∧ I pre' (secondPass env target n pre.length w) := by
  intro n
  induction n with
  | zero =>
      intro w pre post _ hentries hlen hI
      exact ⟨pre, post, hentries, by simp [List.length_eq_zero_iff.mp hlen], hI⟩
  | succ n ih =>
      intro w pre post hB hentries hlen hI
      obtain ⟨⟨price, g⟩, post, rfl⟩ := List.exists_cons_of_length_eq_add_one hlen
      rw [secondPass_succ hentries]
      by_cases ht : target > price
      · rw [if_pos ht]
        exact ⟨pre, _, hentries, by simpa using ht, hI⟩
      · rw [if_neg ht]
        obtain ⟨hrun, hsplit⟩ := passLevel_run env hB hentries
        have hrec := ih (hrun.bookInv hB) (hsplit.trans (List.append_cons _ _ _))
          (by simpa using hlen) (hlevel hB hentries ht hI)
        simpa using hrec

variable (env) in
theorem restore_step {lines : List OrderLine} {w : World} (h : OpenInv lines w) :
    EngineStep env w (w.setBook .SELL (restoreQty (w.book .SELL))) := by
  refine .retotal (sameOrders_restoreQty _) fun e he => ?_
  obtain ⟨g, hg, heq⟩ := mem_restoreQty he
  rw [heq]
  -- a level's own quantity is part of its prefix sum
  calc leavesSum w.mem g.mOrders
      ≤ restingQty w .SELL fun k => !cmp .SELL e.1 k :=
        SortedMap.le_sumWhere (fun k => !cmp .SELL e.1 k)
          (fun g : OrderGroup => leavesSum w.mem g.mOrders) hg
          (by simp [ComparatorLaws.cmp_self (cmp .SELL) e.1])
    _ = g.mTotalQty := by rw [h.resting, ← h.prefixTotal .SELL _ hg]

/-- **`ProcessAuctionOrders` is an engine run.** -/
theorem auction_run (env : Platform) (lines : List OrderLine) :
    EngineRun env default (processAuctionOrders env lines) := by
  have hopen := auctionOpen_inv lines
  have hrestore := restore_step env hopen
  have hstart := (auctionOpen_run env lines).tail hrestore
  obtain ⟨-, -, -, -, hrun⟩ := secondPass_rule env (targetPrice (auctionOpen lines))
    (fun _ w => EngineRun env default w)
    (fun hB h _ hrun => hrun.trans (passLevel_run _ hB h).1) _
    (hrestore.bookInv hopen.toBookInv) (List.nil_append _).symm rfl hstart
  exact hrun

end SecondPass

end LinuxProgram.PrestoLabs
