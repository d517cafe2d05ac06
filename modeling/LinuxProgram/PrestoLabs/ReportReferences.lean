import LinuxProgram.PrestoLabs.Remainder

/-!
# What a report's pointers refer to

A `ReportEntry` copies the two IDs and keeps the addresses of the two orders.
`ProcessNormalOrders` constructs the next order in the slot `OrderMapAddr + index`, and
`index` advances only behind an order that was added to a book.

* The resting order of a report is in front of `index`, where nothing is constructed
  any more: `mOrderPtr2` stays good.
* An order that was filled on arrival has traded, and the next line is constructed in
  its slot: `mOrderPtr1` then names the order of that line.

`normal_reportsRefer_iff` says that the reports stay good exactly as long as the orders
that share a slot with an earlier order of positive quantity also share its ID
(`SlotsKeepID`).
-/

namespace LinuxProgram.PrestoLabs

open Lib

variable {env : Platform}

/-! ### The law -/

/-- **Every report refers to its orders**: the entries at its two pointers have the IDs
it recorded. -/
def ReportsRefer (x : Exchange) : Prop :=
  ∀ r ∈ x.reports, (x.mem r.mOrderPtr1).id = r.id1 ∧ (x.mem r.mOrderPtr2).id = r.id2

/-- The slot in which the order of line `n` is constructed. -/
def lineSlot (env : Platform) (lines : List OrderLine) (n : ℕ) : ℕ :=
  (processNormalOrders env (lines.take n)).index

/-- **A slot keeps its ID**: an order that is constructed in the slot of an earlier
order with a quantity has the ID of that order. -/
def SlotsKeepID (env : Platform) (lines : List OrderLine) : Prop :=
  ∀ k n o o', k < n → lines[k]? = some o → lines[n]? = some o' → o.qty ≠ 0 →
    lineSlot env lines n = lineSlot env lines k → o'.id = o.id

/-! ### The reports of a matching run -/

section Matching

variable {s : Side} {pIncoming : ℕ} {w w' : World}

/-- A report of the matching of `pIncoming` against the book of side `s`, as the state
`w` has the orders. -/
structure RefersIn (s : Side) (pIncoming : ℕ) (w : World) (r : ReportEntry) : Prop where
  ptr1 : r.mOrderPtr1 = pIncoming
  id1 : r.id1 = (w.mem pIncoming).id
  ptr2 : r.mOrderPtr2 ∈ ptrs (w.book s)
  id2 : r.id2 = (w.mem r.mOrderPtr2).id

/-- A step writes one report or leaves the orders alone. -/
theorem MatchStep.refers (h : MatchStep env s pIncoming w w') :
    (w'.reports = w.reports ∧ w'.mem = w.mem) ∨
      ∃ r, w'.reports = w.reports ++ [r] ∧ RefersIn s pIncoming w r := by
  cases h with
  | sort h => exact .inl ⟨rfl, rfl⟩
  | @fill pre key g post r os h hg hne hdead hkey hprice =>
      refine .inr ⟨_, fillStep_reports hne _, rfl, rfl, ?_, rfl⟩
      rw [ptrs_of_split h, hg]
      exact List.mem_append_right _ (.head _)
  | drop h hzero => exact .inl ⟨rfl, rfl⟩
  | readEnd => exact .inl ⟨rfl, rfl⟩

/-- **The reports of a run**, and what a run without any leaves alone. -/
theorem MatchSteps.refers (h : MatchSteps env s pIncoming w w') :
    ∃ l, w'.reports = w.reports ++ l ∧ (∀ r ∈ l, RefersIn s pIncoming w r) ∧
      (l = [] → w'.mem = w.mem) := by
  induction h with
  | refl => exact ⟨[], by simp, List.forall_mem_nil _, fun _ => rfl⟩
  | tail hsteps hstep ih =>
      obtain ⟨l, hlog, hl, hmem⟩ := ih
      obtain ⟨hsub, -, hline, -⟩ := MatchSteps.frame hsteps
      rcases hstep.refers with ⟨hlog', hmem'⟩ | ⟨r, hlog', hr⟩
      · exact ⟨l, hlog'.trans hlog, hl, fun hnil => hmem'.trans (hmem hnil)⟩
      · refine ⟨l ++ [r], by rw [hlog', hlog, List.append_assoc], fun r' hr' => ?_, by simp⟩
        rcases List.mem_append.mp hr' with hr' | hr'
        · exact hl r' hr'
        · rw [List.mem_singleton.mp hr']
          exact ⟨hr.ptr1, hr.id1.trans (congrArg OrderLine.id (hline _).1), hsub hr.ptr2,
            hr.id2.trans (congrArg OrderLine.id (hline _).1)⟩

/-- **An order that does not come to rest has traded**, when the levels are exact and
none is without quantity: its run changes the orders. -/
theorem MatchRun.mem_ne {r : Bool × World} (h : MatchRun env s pIncoming w r)
    (hfull : r.1 = true) (hI : BookInv w) (hside : (w.mem pIncoming).side = s.opposite)
    (hL : LiveBooks w) (hne : ∀ e ∈ (w.book s).entries, e.2.mLeavesQty ≠ 0)
    (hleaves : (w.mem pIncoming).leaves ≠ 0) : r.2.mem ≠ w.mem := by
  intro hsame
  have hout := h.outcome
  rw [hfull] at hout
  generalize hb : true = b at hout
  cases hout with
  | filled hzero _ =>
      rw [hsame] at hzero
      exact hleaves hzero
  | noBook _ _ => cases hb
  | stopped _ _ _ _ => cases hb
  | exhausted _ hnil hdead _ =>
      -- the levels have lost their orders although no quantity was moved
      obtain ⟨e, he⟩ := List.exists_mem_of_ne_nil _ hnil
      have hcons := MatchSteps.conserves h.steps hI hside
      have hle : leavesSum w.mem e.2.mOrders ≤ restingQty w s fun _ => true :=
        SortedMap.le_sumWhere (fun _ => true) (fun g => leavesSum w.mem g.mOrders) he rfl
      have hlive := (hL s e he).1
      have hpos := hne e he
      rw [hsame, restingQty_eq_zero fun e he _ => hdead e he] at hcons
      omega

end Matching

/-! ### One line -/

section Line

variable {lines : List OrderLine} {st : Session}

/-- What one line adds to the reports: they concern its order, in the slot at `index`,
and orders in front of it. -/
structure LineReports (st : Session) (o : OrderLine) (st' : Session) (l : List ReportEntry) :
    Prop where
  log : st'.reports = st.reports ++ l
  /-- only the slot at `index` is written -/
  ids : ∀ p, (st'.mem p).id = ((st.construct o).mem p).id
  new : ∀ r ∈ l, r.mOrderPtr1 = st.index ∧ r.id1 = o.id ∧ r.mOrderPtr2 < st.index ∧
    r.id2 = (st.mem r.mOrderPtr2).id
  qty : l ≠ [] → o.qty ≠ 0
  index : st'.index = st.index ∨ st'.index = st.index + 1
  /-- an order with a quantity that does not come to rest has traded -/
  traded : o.qty ≠ 0 → st'.index = st.index → l ≠ []

theorem LineReports.index_le {o : OrderLine} {st' : Session} {l : List ReportEntry}
    (h : LineReports st o st' l) : st.index ≤ st'.index := by
  rcases h.index with hi | hi <;> omega

theorem SessionInv.refersIn (h : SessionInv lines st) (o : OrderLine) {s : Side}
    {r : ReportEntry} (hr : RefersIn s st.index (st.construct o) r) :
    r.mOrderPtr1 = st.index ∧ r.id1 = o.id ∧ r.mOrderPtr2 < st.index ∧
      r.id2 = (st.mem r.mOrderPtr2).id := by
  have hlt : r.mOrderPtr2 < st.index := h.used s _ hr.ptr2
  refine ⟨hr.ptr1, ?_, hlt, ?_⟩
  · rw [hr.id1, h.construct_self o]
    rfl
  · rw [hr.id2, SessionInv.construct_of_ne o hlt.ne]

variable (env) in
theorem NormalInv.lineReports (h : NormalInv lines st) (o : OrderLine) :
    ∃ l, LineReports st o (normalLine env st o) l := by
  obtain ⟨w, index, hcase, heq⟩ := normalLine_cases env h.toSessionInv o
  rw [heq]
  cases hcase with
  | zero hqty =>
      exact ⟨[], {
        log := (List.append_nil _).symm
        ids := fun _ => rfl
        new := List.forall_mem_nil _
        qty := fun hne => absurd rfl hne
        index := .inl rfl
        traded := fun hne => absurd hqty hne }⟩
  | filled hqty hmatch =>
      have hrun := normalMatch_run env h.toSessionInv o
      rw [hmatch] at hrun
      obtain ⟨l, hlog, hl, hmem⟩ := MatchSteps.refers hrun.steps
      exact ⟨l, {
        log := hlog
        ids := fun p => congrArg OrderLine.id ((MatchSteps.frame hrun.steps).2.2.1 p).1
        new := fun r hr => h.refersIn o (hl r hr)
        qty := fun _ => hqty
        index := .inl rfl
        traded := fun _ _ hnil => hrun.mem_ne rfl (h.construct_bookInv o)
          (by simp [h.construct_self o]) (h.construct_live o) (h.nonempty _)
          (h.construct_leaves_ne o hqty) (hmem hnil) }⟩
  | @rests w hqty hmatch =>
      have hrun := normalMatch_run env h.toSessionInv o
      rw [hmatch] at hrun
      obtain ⟨l, hlog, hl, -⟩ := MatchSteps.refers hrun.steps
      exact ⟨l, {
        log := hlog
        ids := fun p => congrArg OrderLine.id ((MatchSteps.frame hrun.steps).2.2.1 p).1
        new := fun r hr => h.refersIn o (hl r hr)
        qty := fun _ => hqty
        index := .inr rfl
        traded := fun _ hsame => absurd hsame (Nat.succ_ne_self _) }⟩

end Line

/-! ### Every run -/

variable {lines : List OrderLine}

theorem processNormalOrders_concat (lines : List OrderLine) (o : OrderLine) :
    processNormalOrders env (lines ++ [o]) = normalLine env (processNormalOrders env lines) o := by
  rw [processNormalOrders, List.foldl_append]
  rfl

/-- The slots of the lines before do not depend on the lines behind. -/
theorem lineSlot_append (lines' : List OrderLine) {n : ℕ} (hn : n ≤ lines.length) :
    lineSlot env (lines ++ lines') n = lineSlot env lines n := by
  rw [lineSlot, lineSlot, List.take_append_of_le_length hn]

theorem lineSlot_length (lines' : List OrderLine) :
    lineSlot env (lines ++ lines') lines.length = (processNormalOrders env lines).index := by
  rw [lineSlot_append _ le_rfl, lineSlot, List.take_length]

/-- **What the reports refer to after the lines `lines`**, whether or not the IDs are
still there. -/
structure ReferInv (env : Platform) (lines : List OrderLine) (st : Session) : Prop where
  /-- the incoming order is that of a line, in the slot of that line -/
  incoming : ∀ r ∈ st.reports, ∃ k o, lines[k]? = some o ∧ o.qty ≠ 0 ∧
    r.mOrderPtr1 = lineSlot env lines k ∧ r.id1 = o.id
  /-- the resting order is where nothing is constructed any more -/
  resting : ∀ r ∈ st.reports, r.mOrderPtr2 < st.index ∧ (st.mem r.mOrderPtr2).id = r.id2
  slots : ∀ k < lines.length, lineSlot env lines k ≤ st.index
  /-- an order whose slot is to be used again is in a report -/
  reported : ∀ k o, lines[k]? = some o → o.qty ≠ 0 → lineSlot env lines k = st.index →
    ∃ r ∈ st.reports, r.mOrderPtr1 = st.index ∧ r.id1 = o.id

theorem ReferInv.slot_le (h : ReferInv env lines (processNormalOrders env lines)) {k : ℕ}
    (hk : k ≤ lines.length) : lineSlot env lines k ≤ (processNormalOrders env lines).index := by
  rcases hk.lt_or_eq with hk | rfl
  · exact h.slots k hk
  · rw [lineSlot, List.take_length]

/-- **One line**: the invariant needs nothing of it. -/
theorem ReferInv.line {st' : Session} {o : OrderLine} {l : List ReportEntry}
    (h : ReferInv env lines (processNormalOrders env lines))
    (hl : LineReports (processNormalOrders env lines) o st' l) :
    ReferInv env (lines ++ [o]) st' where
  incoming r hr := by
    rw [hl.log, List.mem_append] at hr
    rcases hr with hr | hr
    · obtain ⟨k, o', hk, hqty, hptr, hid⟩ := h.incoming r hr
      have hlt := (List.getElem?_eq_some_iff.mp hk).1
      refine ⟨k, o', by rwa [List.getElem?_append_left hlt], hqty, ?_, hid⟩
      rwa [lineSlot_append _ hlt.le]
    · obtain ⟨hptr, hid, -⟩ := hl.new r hr
      refine ⟨lines.length, o, by simp, hl.qty (List.ne_nil_of_mem hr), ?_, hid⟩
      rw [hptr, lineSlot_length]
  resting r hr := by
    have hold : r.mOrderPtr2 < (processNormalOrders env lines).index ∧
        ((processNormalOrders env lines).mem r.mOrderPtr2).id = r.id2 := by
      rw [hl.log, List.mem_append] at hr
      rcases hr with hr | hr
      · exact h.resting r hr
      · exact ⟨(hl.new r hr).2.2.1, (hl.new r hr).2.2.2.symm⟩
    refine ⟨hold.1.trans_le hl.index_le, ?_⟩
    rw [hl.ids, SessionInv.construct_of_ne o hold.1.ne]
    exact hold.2
  slots k hk := by
    rw [List.length_append, List.length_singleton] at hk
    rw [lineSlot_append _ (by omega)]
    exact (h.slot_le (by omega)).trans hl.index_le
  reported k o' hk hqty hslot := by
    have hlt := (List.getElem?_eq_some_iff.mp hk).1
    rw [List.length_append, List.length_singleton] at hlt
    rw [lineSlot_append _ (by omega)] at hslot
    have hle := h.slot_le (k := k) (by omega)
    -- the slot is used again only if `index` did not advance
    have hsame : st'.index = (processNormalOrders env lines).index := by
      rcases hl.index with hi | hi <;> omega
    rw [hsame] at hslot ⊢
    rw [hl.log]
    rcases getElem?_concat_cases hk with hk | ⟨rfl, rfl⟩
    · obtain ⟨r, hr, hptr, hid⟩ := h.reported k o' hk hqty hslot
      exact ⟨r, List.mem_append_left _ hr, hptr, hid⟩
    · obtain ⟨r, hr⟩ := List.exists_mem_of_ne_nil _ (hl.traded hqty hsame)
      obtain ⟨hptr, hid, -⟩ := hl.new r hr
      exact ⟨r, List.mem_append_right _ hr, hptr, hid⟩

variable (env) in
theorem normal_referInv (lines : List OrderLine) :
    ReferInv env lines (processNormalOrders env lines) := by
  induction lines using List.reverseRecOn with
  | nil =>
      exact {
        incoming := List.forall_mem_nil _
        resting := List.forall_mem_nil _
        slots := fun k hk => absurd hk (Nat.not_lt_zero k)
        reported := fun k o hk => by simp at hk }
  | append_singleton lines o ih =>
      obtain ⟨l, hl⟩ := (normal_inv env lines).lineReports env o
      rw [processNormalOrders_concat]
      exact ih.line hl

/-- A line that keeps the ID of its slot keeps every report good. -/
theorem ReportsRefer.line {st' : Session} {o : OrderLine} {l : List ReportEntry}
    (h : ReportsRefer (processNormalOrders env lines).toExchange)
    (hl : LineReports (processNormalOrders env lines) o st' l)
    (hkeep : SlotsKeepID env (lines ++ [o])) : ReportsRefer st'.toExchange := by
  have hS := normal_sessionInv env lines
  have hinv := (normal_referInv env lines).line hl
  intro r hr
  refine ⟨?_, (hinv.resting r hr).2⟩
  obtain ⟨k, o', hk, hqty, hptr, hid⟩ := hinv.incoming r hr
  rw [hl.ids]
  by_cases hindex : r.mOrderPtr1 = (processNormalOrders env lines).index
  · rw [hindex, hS.construct_self, hid]
    rcases getElem?_concat_cases hk with hk' | ⟨-, rfl⟩
    · have hlt := (List.getElem?_eq_some_iff.mp hk').1
      exact hkeep k lines.length o' o hlt hk (by simp) hqty
        (by rw [lineSlot_length, ← hindex, hptr])
    · rfl
  · rw [SessionInv.construct_of_ne o hindex]
    rw [hl.log, List.mem_append] at hr
    rcases hr with hr | hr
    · exact (h r hr).1
    · exact absurd (hl.new r hr).1 hindex

theorem lineSlot_take {k n : ℕ} (hk : k ≤ n) :
    lineSlot env (lines.take n) k = lineSlot env lines k := by
  rw [lineSlot, lineSlot, List.take_take, min_eq_left hk]

theorem SlotsKeepID.take (h : SlotsKeepID env lines) (n : ℕ) : SlotsKeepID env (lines.take n) := by
  intro k m o o' hkm hk hm hqty hslot
  have hlt := (List.getElem?_eq_some_iff.mp hm).1
  rw [List.length_take] at hlt
  rw [List.getElem?_take_of_lt (by omega)] at hk hm
  rw [lineSlot_take (by omega), lineSlot_take (by omega)] at hslot
  exact h k m o o' hkm hk hm hqty hslot

/-- **The reports stay good exactly as long as the slots keep their IDs.** A report has a pointer to
its orders, and the slot of an order that was filled at once gets the next line. -/
theorem normal_reportsRefer_iff (env : Platform) (lines : List OrderLine) :
    (∀ n ≤ lines.length, ReportsRefer (processNormalOrders env (lines.take n)).toExchange) ↔
      SlotsKeepID env lines := by
  have htake : ∀ {n o}, lines[n]? = some o → lines.take (n + 1) = lines.take n ++ [o] := by
    intro n o hn
    rw [List.take_add_one, hn]
    rfl
  constructor
  · intro h k n o o' hkn hk hn hqty hslot
    have hlt := (List.getElem?_eq_some_iff.mp hn).1
    -- the order of line `k` is in a report, and that of line `n` is put in its slot
    obtain ⟨r, hr, hptr, hid⟩ := (normal_referInv env (lines.take n)).reported k o
      (by rwa [List.getElem?_take_of_lt hkn]) hqty (by rw [lineSlot_take hkn.le, ← hslot]; rfl)
    obtain ⟨l, hl⟩ := (normal_inv env (lines.take n)).lineReports env o'
    have hgood := h (n + 1) hlt
    rw [htake hn, processNormalOrders_concat] at hgood
    have hrefer := (hgood r (by rw [hl.log]; exact List.mem_append_left _ hr)).1
    rw [hl.ids, hptr, (normal_sessionInv env (lines.take n)).construct_self, hid] at hrefer
    exact hrefer
  · intro h n
    induction n with
    | zero => exact fun _ => List.forall_mem_nil _
    | succ n ih =>
        intro hn
        have hlast := List.getElem?_eq_getElem (l := lines) (i := n) hn
        obtain ⟨l, hl⟩ := (normal_inv env (lines.take n)).lineReports env lines[n]
        have hkeep := h.take (n + 1)
        rw [htake hlast] at hkeep ⊢
        rw [processNormalOrders_concat]
        exact (ih (by omega)).line hl hkeep

/-- Selling 10, buying the 10 and then selling 5: the third order is constructed in the
slot of the second, which the report of the trade refers to. -/
theorem report_overwritten :
    ¬ ∀ env lines, ReportsRefer (processNormalOrders env lines).toExchange := by
  intro h
  let line (id : String) (qty : Quantity) (side : Side) : OrderLine :=
    { id := id, party := "A", price := 10000, qty := qty, sequence := 1, side := side }
  have hrefer := h endKeyFalse [line "1" 10 .SELL, line "2" 10 .BUY, line "3" 5 .SELL]
  have hfirst : ∃ r ∈ (processNormalOrders endKeyFalse
      [line "1" 10 .SELL, line "2" 10 .BUY, line "3" 5 .SELL]).reports,
      ((processNormalOrders endKeyFalse
        [line "1" 10 .SELL, line "2" 10 .BUY, line "3" 5 .SELL]).mem r.mOrderPtr1).id ≠ r.id1 := by
    decide
  obtain ⟨r, hr, hne⟩ := hfirst
  exact hne (hrefer r hr).1

end LinuxProgram.PrestoLabs
