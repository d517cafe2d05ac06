import LinuxProgram.PrestoLabs.BookInvariant

/-!
# Both rules as runs of one transition system

`EngineStep` lists the ways the state of the program changes, under either rule:
an order is constructed in an unused slot, an order is added to the book of its
side, a step of a matching run is taken, or the totals of a book are rewritten.
`processNormalOrders` and `processAuctionOrders` are runs of these steps
(`normal_run`, `auction_run`), so a property that every step preserves holds at
every point of both, and is proved once.

The bookkeeping that makes the side conditions of the steps true along the line
loops is `SessionInv`.
-/

namespace LinuxProgram.PrestoLabs

open Lib

variable (env : Platform)

/-- `m'` differs from `m` in the totals of its levels only. -/
def SameOrders {s : Side} (m m' : Levels s) : Prop :=
  m'.entries.map (fun e => (e.1, e.2.mOrders)) = m.entries.map fun e => (e.1, e.2.mOrders)

/-- **The transitions of the engine**, each with what the rules know when they make it.  Both rules
are runs of these, so that what they have in common is shown once. -/
inductive EngineStep : World → World → Prop
  /-- an order is constructed in a slot no book refers to -/
  | construct {w : World} {p n : ℕ} {o : OrderLine}
      (hslot : ∀ s, p ∉ ptrs (w.book s))
      (hline : ∀ q, (w.mem q).line ≠ some n)
      (hreports : ∀ r ∈ w.reports, r.names n = false) :
      EngineStep w (w.setEntry p (OrderEntry.ofLine n o))
  /-- an order is added to the book of its side -/
  | add {w : World} {s : Side} {p : ℕ} (hslot : p ∉ ptrs (w.book s))
      (hside : (w.mem p).side = s) :
      EngineStep w (w.addOrder s (w.mem p).getPrice p)
  /-- a step of the matching of an order against the other side -/
  | trade {w w' : World} {s : Side} {pIncoming : ℕ}
      (hside : (w.mem pIncoming).side = s.opposite)
      (hstep : MatchStep env s pIncoming w w') :
      EngineStep w w'
  /-- the totals of a book are rewritten -/
  | retotal {w : World} {s : Side} {m : Levels s} (hsame : SameOrders (w.book s) m)
      (hbound : ∀ e ∈ m.entries, leavesSum w.mem e.2.mOrders ≤ e.2.mLeavesQty) :
      EngineStep w (w.setBook s m)
  /-- a level is sorted outside of a matching run -/
  | sort {w : World} {s : Side} {pre key g post} (h : (w.book s).Split pre key g post) :
      EngineStep w (sortGroup env s pre.length w)

/-- A run of the engine. -/
abbrev EngineRun : World → World → Prop := Relation.ReflTransGen (EngineStep env)

/-! ### The steps keep `BookInv`

Matching keeps the invariant by the lemmas about its steps.  What remains are the steps between
two calls of `Book::match`: an order is constructed in a slot to which no book refers, it is added
to a level, and the totals of a level are computed again. -/

section Steps

variable {env} {w : World} {s : Side}

theorem SameOrders.ptrs_eq {m m' : Levels s} (h : SameOrders m m') : ptrs m' = ptrs m := by
  have hp : ∀ x : Levels s, ptrs x
      = (x.entries.map fun e => (e.1, e.2.mOrders)).flatMap fun e => e.2 := by
    intro x
    simp [ptrs, List.flatMap_map]
  rw [hp m', hp m, h]

theorem SameOrders.exists_entry {m m' : Levels s} (h : SameOrders m m') {e : Price × OrderGroup}
    (he : e ∈ m'.entries) : ∃ e' ∈ m.entries, e'.1 = e.1 ∧ e'.2.mOrders = e.2.mOrders := by
  have hmem : (e.1, e.2.mOrders) ∈ m.entries.map fun e => (e.1, e.2.mOrders) := by
    rw [← h]
    exact List.mem_map.mpr ⟨e, he, rfl⟩
  obtain ⟨e', he', heq⟩ := List.mem_map.mp hmem
  rw [Prod.mk.injEq] at heq
  exact ⟨e', he', heq.1, heq.2⟩

theorem addOrder_book_of_ne {s' : Side} (hs : s' ≠ s) (price : Price) (p : ℕ) :
    (w.addOrder s price p).book s' = w.book s' :=
  w.setBook_book_of_ne s _ hs

/-- Adding an order adds its slot to the book. -/
theorem ptrs_addOrder_perm (price : Price) (p : ℕ) :
    (ptrs ((w.addOrder s price p).book s)).Perm (p :: ptrs (w.book s)) := by
  rw [World.addOrder, World.setBook_book_self]
  rcases (w.book s).upsert_cases price {} (OrderGroup.addOrder p (w.mem p)) with
    ⟨pre, g, post, hm, hu⟩ | ⟨pre, post, hm, -, -, hu⟩
  · rw [ptrs_of_split hm, ptrs_of_split hu]
    simp only [OrderGroup.addOrder, List.append_assoc, List.singleton_append]
    exact (List.perm_middle.append_left _).trans
      (List.perm_middle.trans (by simp))
  · rw [ptrs_of_split hu, ptrs, hm, List.flatMap_append]
    exact List.perm_middle

/-- Who is in a book after an order was added. -/
theorem mem_ptrs_addOrder {s' : Side} {price : Price} {p q : ℕ} :
    q ∈ ptrs ((w.addOrder s price p).book s') ↔ (s' = s ∧ q = p) ∨ q ∈ ptrs (w.book s') := by
  by_cases hs : s' = s
  · subst hs
    rw [(ptrs_addOrder_perm price p).mem_iff, List.mem_cons]
    simp
  · rw [addOrder_book_of_ne hs]
    simp [hs]

/-- The levels after an order was added: the old ones, and the one it went to. -/
theorem mem_addOrder {price : Price} {p : ℕ} {e : Price × OrderGroup}
    (he : e ∈ ((w.addOrder s price p).book s).entries) :
    e ∈ (w.book s).entries ∨ ∃ g, e = (price, g.addOrder p (w.mem p)) ∧
      (g = {} ∨ (price, g) ∈ (w.book s).entries) := by
  rw [World.addOrder, World.setBook_book_self] at he
  rcases (w.book s).upsert_cases price {} (OrderGroup.addOrder p (w.mem p)) with
    ⟨pre, g, post, hm, hu⟩ | ⟨pre, post, hm, -, -, hu⟩
  · rw [hu, List.mem_append, List.mem_cons] at he
    rcases he with he | rfl | he
    · exact .inl (by rw [hm]; simp [he])
    · exact .inr ⟨g, rfl, .inr hm.mem⟩
    · exact .inl (by rw [hm]; simp [he])
  · rw [hu, List.mem_append, List.mem_cons] at he
    rcases he with he | rfl | he
    · exact .inl (by rw [hm]; simp [he])
    · exact .inr ⟨{}, rfl, .inl rfl⟩
    · exact .inl (by rw [hm]; simp [he])

theorem BookInv.addOrder (hI : BookInv w) {p : ℕ} (hslot : p ∉ ptrs (w.book s))
    (hside : (w.mem p).side = s) : BookInv (w.addOrder s (w.mem p).getPrice p) := by
  have hbook : w.addOrder s (w.mem p).getPrice p
      = w.setBook s ((w.addOrder s (w.mem p).getPrice p).book s) := by
    simp [World.addOrder]
  rw [hbook]
  refine hI.setBook ?_ fun e he => ?_
  · rw [(ptrs_addOrder_perm _ p).nodup_iff, List.nodup_cons]
    exact ⟨hslot, hI.nodup _⟩
  · rcases mem_addOrder he with he | ⟨g, rfl, hg⟩
    · exact hI.levelOk he
    · have hok : LevelOk w s ((w.mem p).getPrice, g) := by
        rcases hg with rfl | hg
        · exact ⟨by simp, by simp⟩
        · exact hI.levelOk hg
      refine ⟨fun q hq => ?_, ?_⟩
      · rcases List.mem_append.mp hq with hq | hq
        · exact hok.1 q hq
        · rw [List.mem_singleton.mp hq]
          exact ⟨hside, rfl⟩
      · have hb := hok.2
        simp only [OrderGroup.addOrder, leavesSum_append, leavesSum_cons, leavesSum_nil,
          OrderEntry.getCurrentQty, OrderEntry.leaves]
        simp only [leavesSum, OrderEntry.leaves] at hb ⊢
        omega

theorem BookInv.construct (hI : BookInv w) {p n : ℕ} {o : OrderLine}
    (hslot : ∀ s, p ∉ ptrs (w.book s)) (hline : ∀ q, (w.mem q).line ≠ some n) :
    BookInv (w.setEntry p (OrderEntry.ofLine n o)) := by
  have hmem : ∀ q, q ≠ p → (w.setEntry p (OrderEntry.ofLine n o)).mem q = w.mem q :=
    fun q hq => Function.update_of_ne hq _ _
  have hself : (w.setEntry p (OrderEntry.ofLine n o)).mem p = OrderEntry.ofLine n o :=
    Function.update_self ..
  have hin : ∀ s', ∀ e ∈ (w.book s').entries, ∀ q ∈ e.2.mOrders, q ≠ p := by
    rintro s' e he q hq rfl
    exact hslot s' (List.mem_flatMap.mpr ⟨e, he, hq⟩)
  exact {
    nodup := hI.nodup
    own := fun s' e he q hq => by
      rw [hmem q (hin s' e he q hq)]
      exact hI.own s' e he q hq
    bound := fun s' e he => by
      rw [leavesSum_congr fun q hq => congrArg OrderEntry.leaves (hmem q (hin s' e he q hq))]
      exact hI.bound s' e he
    lineInj := fun a b m ha hb => by
      by_cases hap : a = p
      · subst hap
        by_cases hbp : b = a
        · exact hbp.symm
        · rw [hself] at ha
          rw [hmem b hbp] at hb
          obtain rfl : n = m := Option.some.inj ha
          exact absurd hb (hline b)
      · rw [hmem a hap] at ha
        by_cases hbp : b = p
        · subst hbp
          rw [hself] at hb
          obtain rfl : n = m := Option.some.inj hb
          exact absurd ha (hline a)
        · rw [hmem b hbp] at hb
          exact hI.lineInj a b m ha hb }

theorem BookInv.retotal (hI : BookInv w) {m : Levels s} (hsame : SameOrders (w.book s) m)
    (hbound : ∀ e ∈ m.entries, leavesSum w.mem e.2.mOrders ≤ e.2.mLeavesQty) :
    BookInv (w.setBook s m) := by
  refine hI.setBook (by rw [hsame.ptrs_eq]; exact hI.nodup _) fun e he =>
    ⟨fun p hp => ?_, hbound e he⟩
  obtain ⟨e', he', hk, ho⟩ := hsame.exists_entry he
  rw [← hk]
  exact hI.own _ e' he' p (ho ▸ hp)

/-- **Every transition keeps `BookInv`.** -/
theorem EngineStep.bookInv {w w' : World} (h : EngineStep env w w') (hI : BookInv w) :
    BookInv w' := by
  cases h with
  | construct hslot hline _ => exact hI.construct hslot hline
  | add hslot hside => exact hI.addOrder hslot hside
  | trade hside hstep => exact hstep.bookInv hside hI
  | retotal hsame hbound => exact hI.retotal hsame hbound
  | sort h => exact hI.sort _ h

theorem bookInv_default : BookInv (default : World) where
  nodup s := by simp [ptrs, show (default : World).book s = SortedMap.empty from rfl]
  own s e he := by simp [show (default : World).book s = SortedMap.empty from rfl] at he
  bound s e he := by simp [show (default : World).book s = SortedMap.empty from rfl] at he
  lineInj p q n hp := by simp [show ((default : World).mem p).line = none from rfl] at hp

end Steps

/-! ### Matching runs are engine runs

A run of matching steps is a run of the engine, and the engine is what the later results do their
induction over.  `EngineRun.rule` is that induction, and hands `BookInv` to every step. -/

section Runs

variable {env} {s : Side} {pIncoming : ℕ}

theorem EngineRun.bookInv {w w' : World} (h : EngineRun env w w') (hI : BookInv w) :
    BookInv w' := by
  induction h with
  | refl => exact hI
  | tail _ hstep ih => exact hstep.bookInv ih

/-- **The induction over a run**: an invariant that every transition keeps, given
`BookInv`, holds in every state a run from the start reaches. -/
theorem EngineRun.rule {I : World → Prop} (hinit : I default)
    (hstep : ∀ {w w'}, BookInv w → EngineStep env w w' → I w → I w') {w : World}
    (h : EngineRun env default w) : I w := by
  induction h with
  | refl => exact hinit
  | tail hrun h ih => exact hstep (EngineRun.bookInv hrun bookInv_default) h ih

/-- The state in which the call `c` of `OrderEntry::match` was made: the resting
order is the first of a level the incoming order accepts, its key is the largest
of the level, and the better levels have no order left. -/
structure FillCall (env : Platform) (w : World) (c : MatchCall) : Prop where
  before : c.before = w.toExchange
  ne : c.resting ≠ c.incoming
  side : (w.mem c.incoming).side = c.side.opposite
  level : ∃ pre key g post os, (w.book c.side).Split pre key g post ∧
    g.mOrders = c.resting :: os ∧ (∀ e ∈ pre, e.2.mOrders = []) ∧
    (∀ r ∈ os, (w.mem r).getKey env.normalRuleApply
      ≤ (w.mem c.resting).getKey env.normalRuleApply) ∧
    cmp c.side (w.mem c.incoming).price key = false

/-- The report of the call `c`. -/
def MatchCall.report (c : MatchCall) (w : World) : ReportEntry where
  id1 := (w.mem c.incoming).id
  id2 := (w.mem c.resting).id
  mCrossQty := crossed w c.resting c.incoming
  mCrossPrice := (w.mem c.resting).price
  mOrderPtr1 := c.incoming
  mOrderPtr2 := c.resting
  entry1 := tradedMem w c.resting c.incoming c.incoming
  entry2 := tradedMem w c.resting c.incoming c.resting

/-- **Reports, calls and accounts are written together**, and only by a fill. -/
theorem EngineStep.calls_cases {w w' : World} (h : EngineStep env w w') :
    (w'.calls = w.calls ∧ w'.reports = w.reports ∧ w'.accounts = w.accounts) ∨
      ∃ c, FillCall env w c ∧ w'.calls = w.calls ++ [c] ∧
        w'.reports = w.reports ++ [c.report w] ∧
        w'.accounts = (matchEntry c.side c.resting c.incoming w).2.accounts := by
  cases h with
  | construct hslot hline _ => exact .inl ⟨rfl, rfl, rfl⟩
  | add hslot hside => exact .inl ⟨rfl, rfl, rfl⟩
  | @trade _ s pIncoming hside hstep =>
      cases hstep with
      | sort h => exact .inl ⟨rfl, rfl, rfl⟩
      | @fill pre key g post r os h hg hne hdead hkey hprice =>
          exact .inr ⟨⟨s, r, pIncoming, w.toExchange⟩,
            ⟨rfl, hne, hside, pre, key, g, post, os, h, hg, hdead, hkey, hprice⟩,
            fillStep_calls hne _, fillStep_reports hne _,
            fillStep_accounts hne _⟩
      | drop h hzero => exact .inl ⟨rfl, rfl, rfl⟩
      | readEnd => exact .inl ⟨rfl, rfl, rfl⟩
  | retotal hsame hbound => exact .inl ⟨rfl, rfl, rfl⟩
  | sort h => exact .inl ⟨rfl, rfl, rfl⟩

theorem MatchSteps.engineRun {w w' : World} (h : MatchSteps env s pIncoming w w')
    (hside : (w.mem pIncoming).side = s.opposite) : EngineRun env w w' := by
  induction h with
  | refl => exact .refl
  | tail hsteps hstep ih =>
      exact ih.tail (.trade ((MatchSteps.side_eq hsteps pIncoming).trans hside) hstep)

variable (env) in
/-- The run of a call of `Book::match` on books that satisfy the invariant. -/
theorem BookInv.matchOrder_run {w : World} (hI : BookInv w)
    (hside : (w.mem pIncoming).side = s.opposite) :
    MatchRun env s pIncoming w (matchOrder env s pIncoming w) :=
  PrestoLabs.matchOrder_run (hI.nodup s) (hI.notMem_ptrs hside)

/-- Reports name orders that are in memory when they are written. -/
theorem MatchStep.report_names {w w' : World} (h : MatchStep env s pIncoming w w') {n : ℕ}
    {r : ReportEntry} (hr : r ∈ w'.reports) (hn : r.names n = true) :
    r ∈ w.reports ∨ ∃ p, (w.mem p).line = some n := by
  cases h with
  | sort h => exact .inl hr
  | fill h hg hne hdead hkey hprice =>
      rw [fillStep_reports hne, List.mem_append, List.mem_singleton] at hr
      rcases hr with hr | rfl
      · exact .inl hr
      · refine .inr ?_
        rcases crossReport_names.mp hn with hn | hn
        · exact ⟨_, hn⟩
        · exact ⟨_, hn⟩
  | drop h => exact .inl hr
  | readEnd => exact .inl hr

theorem MatchSteps.report_names {w w' : World} (h : MatchSteps env s pIncoming w w') {n : ℕ}
    {r : ReportEntry} (hr : r ∈ w'.reports) (hn : r.names n = true) :
    r ∈ w.reports ∨ ∃ p, (w.mem p).line = some n := by
  induction h with
  | refl => exact .inl hr
  | tail hsteps hstep ih =>
      rcases hstep.report_names hr hn with hr | ⟨p, hp⟩
      · exact ih hr
      · rw [(MatchSteps.frame hsteps |>.2.2.1 p).2] at hp
        exact .inr ⟨p, hp⟩

end Runs

/-! ### The line loops

A session is the engine with the `index` of the slot in which the next order is constructed; no
book refers to that slot, nor to one behind it.  `normalLine_cases` lists what a line of the
normal rule can do, and the results about the normal rule split by it. -/

/-- **The invariant of the line loops**, after the lines `lines`. -/
structure SessionInv (lines : List OrderLine) (st : Session) : Prop
    extends BookInv st.toWorld where
  lineNo : st.lineNo = lines.length
  used : ∀ s, ∀ p ∈ ptrs (st.book s), p < st.index
  origin : ∀ p n, (st.mem p).line = some n → lines[n]? = some (st.mem p).toOrderLine
  reportLines : ∀ r ∈ st.reports, ∀ n, r.names n = true → n < lines.length

section Lines

variable {env} {lines : List OrderLine} {st : Session}

theorem sessionInv_default : SessionInv [] default where
  toBookInv := bookInv_default
  lineNo := rfl
  used s p hp := by simp [ptrs, show (default : Session).book s = SortedMap.empty from rfl] at hp
  origin p n hp := by simp [show ((default : Session).mem p).line = none from rfl] at hp
  reportLines r hr := by simp [show (default : Session).reports = [] from rfl] at hr

namespace SessionInv

variable (h : SessionInv lines st) (o : OrderLine)

include h

theorem line_lt {p n : ℕ} (hp : (st.mem p).line = some n) : n < lines.length := by
  have := h.origin p n hp
  exact (List.getElem?_eq_some_iff.mp this).1

variable (env) in
theorem construct_step : EngineStep env st.toWorld (st.construct o) := by
  refine .construct (fun s hp => absurd (h.used s _ hp) (lt_irrefl _)) (fun q hq => ?_)
    (fun r hr => ?_)
  · have := h.line_lt hq
    have := h.lineNo
    omega
  · by_contra hn
    have := h.reportLines r hr _ (by simpa using hn)
    have := h.lineNo
    omega

theorem construct_self :
    (st.construct o).mem st.index = OrderEntry.ofLine lines.length o := by
  rw [← h.lineNo]
  exact Function.update_self ..

theorem construct_leaves_ne (hqty : o.qty ≠ 0) :
    ((st.construct o).mem st.index).leaves ≠ 0 := by
  rw [h.construct_self, OrderEntry.ofLine_leaves]
  exact fun h0 => hqty (UInt32.toNat_inj.mp (by simpa using h0))

omit h in
theorem construct_of_ne {p : ℕ} (hp : p ≠ st.index) : (st.construct o).mem p = st.mem p :=
  Function.update_of_ne hp _ _

theorem construct_bookInv : BookInv (st.construct o) :=
  (h.construct_step default o).bookInv h.toBookInv

theorem construct_origin {p n : ℕ} (hp : ((st.construct o).mem p).line = some n) :
    (lines ++ [o])[n]? = some ((st.construct o).mem p).toOrderLine := by
  by_cases hpi : p = st.index
  · subst hpi
    rw [h.construct_self] at hp ⊢
    obtain rfl : lines.length = n := Option.some.inj hp
    simp
  · rw [construct_of_ne o hpi] at hp ⊢
    rw [List.getElem?_append_left (h.line_lt hp)]
    exact h.origin p n hp

theorem construct_line_lt {p n : ℕ} (hp : ((st.construct o).mem p).line = some n) :
    n < (lines ++ [o]).length :=
  (List.getElem?_eq_some_iff.mp (h.construct_origin o hp)).1

/-- The invariant after a line, from what its processing did to the state. -/
theorem after_construct {w : World} (index : ℕ) (hI : BookInv w)
    (hline : ∀ p, (w.mem p).toOrderLine = ((st.construct o).mem p).toOrderLine ∧
      (w.mem p).line = ((st.construct o).mem p).line)
    (hused : ∀ s, ∀ p ∈ ptrs (w.book s), p < index)
    (hreports : ∀ r ∈ w.reports, ∀ n, r.names n = true →
      r ∈ st.reports ∨ ∃ p, ((st.construct o).mem p).line = some n) :
    SessionInv (lines ++ [o]) { w with index := index, lineNo := st.lineNo + 1 } where
  toBookInv := hI
  lineNo := by simp [h.lineNo]
  used := hused
  origin p n hp := by
    change (w.mem p).line = some n at hp
    change (lines ++ [o])[n]? = some (w.mem p).toOrderLine
    rw [(hline p).1]
    rw [(hline p).2] at hp
    exact h.construct_origin o hp
  reportLines r hr n hn := by
    rcases hreports r hr n hn with hr | ⟨p, hp⟩
    · have := h.reportLines r hr n hn
      simp
      omega
    · exact h.construct_line_lt o hp

end SessionInv

/-- The two branches of `ProcessNormalOrders` are one: match against the book of
the other side. -/
theorem normalLine_eq (h : SessionInv lines st) (o : OrderLine) :
    normalLine env st o =
      if o.qty = 0 then { st.construct o with index := st.index, lineNo := st.lineNo + 1 }
      else
        { (normalMatch env o.side.opposite st.index (st.construct o)).2 with
          index := if (normalMatch env o.side.opposite st.index (st.construct o)).1
            then st.index + 1 else st.index
          lineNo := st.lineNo + 1 } := by
  have hself := h.construct_self o
  have hempty : ((st.construct o).mem st.index).empty = true ↔ o.qty = 0 := by
    rw [hself]
    simp [OrderEntry.empty, OrderEntry.ofLine]
  have hbuy : (((st.construct o).mem st.index).isBuy = true) ↔ o.side = .BUY := by
    rw [hself, OrderEntry.isBuy, decide_eq_true_eq]
    rfl
  simp only [normalLine, hempty, hbuy]
  split
  · rfl
  · cases hs : o.side
    · rw [if_pos rfl]
      rfl
    · rw [if_neg (by decide)]
      rfl

/-- What one line of `ProcessNormalOrders` can do. -/
inductive LineCase (env : Platform) (st : Session) (o : OrderLine) : World → ℕ → Prop
  | zero (hqty : o.qty = 0) : LineCase env st o (st.construct o) st.index
  | filled {w : World} (hqty : o.qty ≠ 0)
      (hmatch : matchOrder env o.side.opposite st.index (st.construct o) = (true, w)) :
      LineCase env st o w st.index
  | rests {w : World} (hqty : o.qty ≠ 0)
      (hmatch : matchOrder env o.side.opposite st.index (st.construct o) = (false, w)) :
      LineCase env st o (w.addOrder o.side (w.mem st.index).getPrice st.index) (st.index + 1)

variable (env) in
theorem normalLine_cases (h : SessionInv lines st) (o : OrderLine) :
    ∃ w index, LineCase env st o w index ∧
      normalLine env st o = { w with index := index, lineNo := st.lineNo + 1 } := by
  rw [normalLine_eq h o]
  by_cases hqty : o.qty = 0
  · rw [if_pos hqty]
    exact ⟨_, _, .zero hqty, rfl⟩
  · rw [if_neg hqty]
    rcases hmatch : matchOrder env o.side.opposite st.index (st.construct o) with ⟨full, w⟩
    cases full with
    | true => exact ⟨_, _, .filled hqty hmatch, by simp [normalMatch, hmatch]⟩
    | false => exact ⟨_, _, .rests hqty hmatch, by simp [normalMatch, hmatch]⟩

variable (env) in
/-- The run of the matching of a new order. -/
theorem normalMatch_run (h : SessionInv lines st) (o : OrderLine) :
    MatchRun env o.side.opposite st.index (st.construct o)
      (matchOrder env o.side.opposite st.index (st.construct o)) :=
  (h.construct_bookInv o).matchOrder_run _ (by simp [h.construct_self o])

theorem SessionInv.construct_free (h : SessionInv lines st) (o : OrderLine) (s : Side) :
    st.index ∉ ptrs ((st.construct o).book s) :=
  fun hp => absurd (h.used s _ hp) (lt_irrefl _)

/-- **The state after a new order was matched.** -/
structure Matched (env : Platform) (st : Session) (o : OrderLine) (w : World) : Prop
    extends BookInv w where
  run : EngineRun env st.toWorld w
  line : ∀ p, (w.mem p).toOrderLine = ((st.construct o).mem p).toOrderLine ∧
    (w.mem p).line = ((st.construct o).mem p).line
  /-- no slot came into either book -/
  ptrs : ∀ s, ptrs (w.book s) ⊆ ptrs (st.book s)
  reports : ∀ r ∈ w.reports, ∀ n, r.names n = true →
    r ∈ st.reports ∨ ∃ p, ((st.construct o).mem p).line = some n

theorem SessionInv.matched (h : SessionInv lines st) (o : OrderLine) {full : Bool} {w : World}
    (hmatch : matchOrder env o.side.opposite st.index (st.construct o) = (full, w)) :
    Matched env st o w := by
  have hside : ((st.construct o).mem st.index).side = o.side.opposite.opposite := by
    simp [h.construct_self o]
  have hrun := normalMatch_run env h o
  rw [hmatch] at hrun
  have hptrs := MatchSteps.ptrs_subset hrun.steps
  exact {
    toBookInv := MatchSteps.bookInv hrun.steps hside (h.construct_bookInv o)
    run := .head (h.construct_step env o) (MatchSteps.engineRun hrun.steps hside)
    line := (MatchSteps.frame hrun.steps).2.2.1
    ptrs := hptrs
    reports := fun r hr n hn => MatchSteps.report_names hrun.steps hr hn }

variable (env) in
/-- **One line of `ProcessNormalOrders`** is an engine run and keeps the invariant. -/
theorem normalLine_run (h : SessionInv lines st) (o : OrderLine) :
    EngineRun env st.toWorld (normalLine env st o).toWorld ∧
      SessionInv (lines ++ [o]) (normalLine env st o) := by
  obtain ⟨w, index, hcase, heq⟩ := normalLine_cases env h o
  rw [heq]
  cases hcase with
  | zero hqty =>
      exact ⟨.single (h.construct_step _ o), h.after_construct o _ (h.construct_bookInv o)
        (fun _ => ⟨rfl, rfl⟩) h.used fun r hr _ _ => .inl hr⟩
  | filled hqty hmatch =>
      have hM := h.matched o hmatch
      exact ⟨hM.run, h.after_construct o _ hM.toBookInv hM.line
        (fun s p hp => h.used s p (hM.ptrs s hp)) hM.reports⟩
  | @rests w hqty hmatch =>
      have hM := h.matched o hmatch
      have hslot : st.index ∉ ptrs (w.book o.side) := fun hp =>
        h.construct_free o _ (hM.ptrs _ hp)
      have hside : (w.mem st.index).side = o.side := by
        rw [(hM.line _).1, h.construct_self o]
        rfl
      refine ⟨hM.run.tail (.add hslot hside), h.after_construct o _
        (hM.addOrder hslot hside) hM.line (fun s p hp => ?_) hM.reports⟩
      rcases mem_ptrs_addOrder.mp hp with ⟨-, rfl⟩ | hp
      · exact Nat.lt_succ_self _
      · exact (h.used _ p (hM.ptrs _ hp)).trans (Nat.lt_succ_self _)

theorem normal_sessionInv (env : Platform) (lines : List OrderLine) :
    SessionInv lines (processNormalOrders env lines) := by
  induction lines using List.reverseRecOn with
  | nil => exact sessionInv_default
  | append_singleton lines o ih =>
      rw [processNormalOrders, List.foldl_append]
      exact (normalLine_run _ ih o).2

/-- **`ProcessNormalOrders` is an engine run.** -/
theorem normal_run (env : Platform) (lines : List OrderLine) :
    EngineRun env default (processNormalOrders env lines).toWorld := by
  induction lines using List.reverseRecOn with
  | nil => exact .refl
  | append_singleton lines o ih =>
      rw [processNormalOrders, List.foldl_append]
      exact ih.trans (normalLine_run _ (normal_sessionInv env lines) o).1

end Lines

end LinuxProgram.PrestoLabs
