import LinuxProgram.Lib.Charge
import LinuxProgram.PrestoLabs.Auction

/-!
# The report buffer

`ReportManager::addReport` advances a pointer into the file that
`ReportManager::init` mapped, without a check.  It stays inside because a report can be
charged to an order: every report completes one of its two orders, and a completed
order is in no later report.

* `Fills` — the reports of one call of `Book::match`.  The argument is about the
  loops: a trade after which the incoming order has nothing left is the last of the
  call (`matchGroupLoop_fills`, `matchLevels_fills`), also when it crosses nothing.
* `Chargeable` — the invariant between two calls.  A set of slots is *live*: their
  orders may still trade, and none of them was completed.
* `normalLine_chargeable`, `matchBuyOrders_chargeable` — under the normal rule the live
  slots are those of the two books; in the auction, those of the sell book and the
  buy orders the second pass has still to come to.
-/

namespace LinuxProgram.PrestoLabs

open Lib

variable {env : Platform} {s : Side} {pIncoming : ℕ}

/-! ### The buffer

The file that is mapped has room for two reports for each line that was counted, and nothing in
`addReport` looks at its size.  What is shown instead is that a line is charged with one report at
most: the one that completes its order. -/

/-- The entries `ParseFiles` maps by `init(lines.size()*2)`; `lastEmpty` tells whether
the file ends in a newline, so that an empty last line is counted and then popped. -/
def mappedEntries (lines : List OrderLine) (lastEmpty : Bool) : ℕ :=
  (lines.length + if lastEmpty then 1 else 0) * 2

/-- The report completes the order of line `n`: nothing is left on it. -/
def ReportEntry.Completes (r : ReportEntry) (n : ℕ) : Prop :=
  (r.entry1.leaves = 0 ∧ r.entry1.line = some n) ∨
    (r.entry2.leaves = 0 ∧ r.entry2.line = some n)

theorem ReportEntry.names_iff {r : ReportEntry} {n : ℕ} :
    r.names n = true ↔ r.entry1.line = some n ∨ r.entry2.line = some n := by
  simp [ReportEntry.names]

theorem ReportEntry.Completes.names {r : ReportEntry} {n : ℕ} (h : r.Completes n) :
    r.names n = true :=
  ReportEntry.names_iff.mpr (h.imp And.right And.right)

/-- **Reports that are charged to the lines.** -/
abbrev ChargedReports : ℕ → List ReportEntry → Prop :=
  Charged ReportEntry.Completes fun r n => r.names n = true

/-! ### One call of `Book::match` -/

/-- **The reports of a matching run**, from `w` to `w'`. -/
structure Fills (s : Side) (pIncoming : ℕ) (w w' : World) (reports : List ReportEntry) :
    Prop where
  log : w'.reports = w.reports ++ reports
  ptrs : (ptrs (w'.book s)).Subperm (ptrs (w.book s))
  other : ∀ s' ≠ s, w'.book s' = w.book s'
  lines : ∀ p, (w'.mem p).toOrderLine = (w.mem p).toOrderLine ∧ (w'.mem p).line = (w.mem p).line
  incoming : ∀ r ∈ reports, r.entry1.line = (w.mem pIncoming).line
  resting : ∀ r ∈ reports, r.mOrderPtr2 ∈ PrestoLabs.ptrs (w.book s) ∧
    r.entry2.toOrderLine = (w.mem r.mOrderPtr2).toOrderLine ∧
    r.entry2.line = (w.mem r.mOrderPtr2).line
  removed : ∀ r ∈ reports, r.entry2.leaves = 0 → r.mOrderPtr2 ∉ PrestoLabs.ptrs (w'.book s)
  empties : ∀ r ∈ reports, r.entry2.leaves = 0 ∨ r.entry1.leaves = 0
  /-- a report that has a successor leaves the incoming order open -/
  once : reports.Pairwise fun r r' => r.entry1.leaves ≠ 0 ∧ r.mOrderPtr2 ≠ r'.mOrderPtr2

namespace Fills

variable {w w' w'' : World} {reports reports' : List ReportEntry}

/-- A step that makes no trade. -/
theorem nil (hmem : w'.mem = w.mem) (hreports : w'.reports = w.reports)
    (hptrs : (PrestoLabs.ptrs (w'.book s)).Subperm (PrestoLabs.ptrs (w.book s)))
    (hother : ∀ s' ≠ s, w'.book s' = w.book s') : Fills s pIncoming w w' [] where
  log := by rw [hreports, List.append_nil]
  ptrs := hptrs
  other := hother
  lines p := by rw [hmem]; exact ⟨rfl, rfl⟩
  incoming := List.forall_mem_nil _
  resting := List.forall_mem_nil _
  removed := List.forall_mem_nil _
  empties := List.forall_mem_nil _
  once := .nil

theorem refl (w : World) : Fills s pIncoming w w [] :=
  nil rfl rfl (List.Subperm.refl _) fun _ _ => rfl

/-- No order comes to be in the book twice. -/
theorem nodup (h : Fills s pIncoming w w' reports) (hnd : (PrestoLabs.ptrs (w.book s)).Nodup) :
    (PrestoLabs.ptrs (w'.book s)).Nodup := by
  obtain ⟨l, hperm, hsub⟩ := h.ptrs
  exact hperm.nodup_iff.mp (hnd.sublist hsub)

/-- Two parts of a run, the second of which trades only if the first left the incoming
order open. -/
theorem trans (h : Fills s pIncoming w w' reports) (h' : Fills s pIncoming w' w'' reports')
    (hopen : reports' ≠ [] → ∀ r ∈ reports, r.entry1.leaves ≠ 0) :
    Fills s pIncoming w w'' (reports ++ reports') where
  log := by rw [h'.log, h.log, List.append_assoc]
  ptrs := h'.ptrs.trans h.ptrs
  other s' hs := (h'.other s' hs).trans (h.other s' hs)
  lines p := ⟨(h'.lines p).1.trans (h.lines p).1, (h'.lines p).2.trans (h.lines p).2⟩
  incoming r hr := by
    rcases List.mem_append.mp hr with hr | hr
    · exact h.incoming r hr
    · exact (h'.incoming r hr).trans (h.lines pIncoming).2
  resting r hr := by
    rcases List.mem_append.mp hr with hr | hr
    · exact h.resting r hr
    · obtain ⟨hp, hentry, hline⟩ := h'.resting r hr
      exact ⟨h.ptrs.subset hp, hentry.trans (h.lines _).1, hline.trans (h.lines _).2⟩
  removed r hr hzero := by
    rcases List.mem_append.mp hr with hr | hr
    · exact fun hp => h.removed r hr hzero (h'.ptrs.subset hp)
    · exact h'.removed r hr hzero
  empties r hr := by
    rcases List.mem_append.mp hr with hr | hr
    · exact h.empties r hr
    · exact h'.empties r hr
  once := by
    rw [List.pairwise_append]
    refine ⟨h.once, h'.once, fun r hr r' hr' => ?_⟩
    have hr0 := hopen (List.ne_nil_of_mem hr') r hr
    -- the resting order of `r` was emptied, so it is not there for `r'`
    have hzero := (h.empties r hr).resolve_right hr0
    refine ⟨hr0, fun heq => ?_⟩
    exact h.removed r hr hzero (heq ▸ (h'.resting r' hr').1)

/-- One trade with the first order of a level. -/
theorem fill {pre post : List (Price × OrderGroup)} {key : Price} {g : OrderGroup} {p : ℕ}
    {os : List ℕ} (hnd : (PrestoLabs.ptrs (w.book s)).Nodup)
    (h : (w.book s).Split pre key g post) (hg : g.mOrders = p :: os) (hne : p ≠ pIncoming) :
    ∃ r, Fills s pIncoming w (fillStep s pre.length p pIncoming w) [r] ∧
      r.entry1.leaves = ((fillStep s pre.length p pIncoming w).mem pIncoming).leaves := by
  have hsplit := fillStep_split h hg hne
  have hlog := fillStep_reports (s := s) (w := w) hne pre.length
  rw [ptrs_of_split h, hg] at hnd
  refine ⟨_, {
    log := hlog
    ptrs := ?_
    other := fun s' hs => fillStep_book_of_ne hne hs _
    lines := fun q => by rw [fillStep_mem hne]; simp
    incoming := List.forall_mem_singleton.mpr (tradedMem_line _)
    resting := by
      refine List.forall_mem_singleton.mpr ⟨?_, tradedMem_toOrderLine .., tradedMem_line _⟩
      rw [ptrs_of_split h, hg]
      exact List.mem_append_right _ (.head _)
    removed := List.forall_mem_singleton.mpr ?_
    empties := List.forall_mem_singleton.mpr (tradedMem_empty hne)
    once := List.pairwise_singleton _ _ }, ?_⟩
  · rw [ptrs_of_split hsplit, ptrs_of_split h, hg]
    refine (List.Sublist.append_left (List.Sublist.append_right ?_ _) _).subperm
    dsimp only
    split
    · exact List.sublist_cons_self _ _
    · exact List.Sublist.refl _
  · intro (hzero : (tradedMem w p pIncoming p).leaves = 0)
    rw [ptrs_of_split hsplit, if_pos hzero]
    exact (List.nodup_cons.mp (List.nodup_middle.mp hnd)).1
  · rw [fillStep_mem hne]
    rfl

end Fills

/-! ### The loops of a call -/

section Loops

variable {w : World}

theorem sortGroup_fills (i : ℕ) (w : World) : Fills s pIncoming w (sortGroup env s i w) [] := by
  refine .nil rfl rfl ?_ fun s' hs => sortGroup_book_of_ne hs i
  cases hget : (w.book s).entries[i]? with
  | none =>
      have hsame : (w.book s).modifyAt i (fun g =>
          { g with mOrders := sortOrders env w.mem g.mOrders }) = w.book s := by
        ext1
        exact List.modify_eq_self (List.getElem?_eq_none_iff.mp hget)
      rw [sortGroup, World.modifyGroup, World.setBook_book_self, hsame]
  | some e =>
      obtain ⟨pre, post, h, rfl⟩ := SortedMap.exists_split hget
      rw [ptrs_of_split (sortGroup_split env h), ptrs_of_split h]
      exact (((sortOrders_perm env w.mem _).append_right _).append_left _).subperm

theorem eraseGroup_fills (i : ℕ) (w : World) : Fills s pIncoming w (w.eraseGroup s i) [] := by
  refine .nil rfl rfl ?_ fun s' hs => w.setBook_book_of_ne s _ hs
  rw [World.eraseGroup, World.setBook_book_self]
  exact ((List.eraseIdx_sublist _ _).flatMap _).subperm

/-- The reports of a part of a call that answers whether the incoming order was
completed: if it was not, every report left it open. -/
def Answers (s : Side) (pIncoming : ℕ) (w : World) (r : Bool × World) : Prop :=
  ∃ reports, Fills s pIncoming w r.2 reports ∧
    (r.1 = false → ∀ x ∈ reports, x.entry1.leaves ≠ 0)

namespace Answers

variable {w' : World} {reports : List ReportEntry} {r : Bool × World}

theorem refl (b : Bool) (w : World) : Answers s pIncoming w (b, w) :=
  ⟨[], .refl w, fun _ _ hx => absurd hx List.not_mem_nil⟩

/-- Nothing is asked of a call that answers yes. -/
theorem yes (h : Fills s pIncoming w w' reports) : Answers s pIncoming w (true, w') :=
  ⟨reports, h, fun hb => Bool.noConfusion hb⟩

/-- What comes before, if it left the incoming order open. -/
theorem after (h : Answers s pIncoming w' r) (hfills : Fills s pIncoming w w' reports)
    (hopen : ∀ x ∈ reports, x.entry1.leaves ≠ 0) : Answers s pIncoming w r := by
  obtain ⟨rest, hrest, hclosed⟩ := h
  refine ⟨reports ++ rest, hfills.trans hrest fun _ => hopen, fun hb x hx => ?_⟩
  rcases List.mem_append.mp hx with hx | hx
  · exact hopen x hx
  · exact hclosed hb x hx

/-- A step without a trade at the end. -/
theorem tail {b : Bool} (h : Answers s pIncoming w (b, w'))
    {w'' : World} (hlast : Fills s pIncoming w' w'' []) : Answers s pIncoming w (b, w'') := by
  obtain ⟨reports, hfills, hclosed⟩ := h
  have htrans := hfills.trans hlast fun h => absurd rfl h
  rw [List.append_nil] at htrans
  exact ⟨reports, htrans, hclosed⟩

end Answers

/-- **The inner loop.**  It trades with the first order of the level until the incoming
order has nothing left. -/
theorem matchGroupLoop_fills (i : ℕ) : ∀ (n : ℕ) {w : World}, (ptrs (w.book s)).Nodup →
    pIncoming ∉ ptrs (w.book s) → Answers s pIncoming w (matchGroupLoop s i pIncoming n 0 w) := by
  intro n
  induction n with
  | zero => exact fun _ _ => .refl false _
  | succ n ih =>
      intro w hnd hnotin
      cases hfirst : (w.group? s i).bind fun g => g.mOrders[0]? with
      | none =>
          rw [matchGroupLoop, hfirst]
          exact .refl false w
      | some p =>
          obtain ⟨g, hgroup, hp⟩ := Option.bind_eq_some_iff.mp hfirst
          obtain ⟨⟨key, g'⟩, hget, rfl⟩ := Option.map_eq_some_iff.mp hgroup
          obtain ⟨pre, post, h, rfl⟩ := SortedMap.exists_split hget
          obtain ⟨os, hg⟩ : ∃ os, g'.mOrders = p :: os :=
            List.head?_eq_some_iff.mp (by rwa [List.head?_eq_getElem?])
          have hne : p ≠ pIncoming := by
            rintro rfl
            exact hnotin (List.mem_flatMap.mpr ⟨_, h.mem, by simp [hg]⟩)
          obtain ⟨r, hfill, hr⟩ := Fills.fill hnd h hg hne
          rw [matchGroupLoop_cons h hg hne]
          split
          · exact .yes hfill
          · rename_i hopen
            exact (ih (hfill.nodup hnd) fun hp => hnotin (hfill.ptrs.subset hp)).after hfill
              (by simpa [hr] using hopen)

variable (env) in
theorem matchGroup_fills (i : ℕ) (hnd : (ptrs (w.book s)).Nodup)
    (hnotin : pIncoming ∉ ptrs (w.book s)) :
    Answers s pIncoming w (matchGroup env s i pIncoming w) := by
  have hsort : Fills s pIncoming w (sortGroup env s i w) [] := sortGroup_fills i w
  exact (matchGroupLoop_fills i _ (hsort.nodup hnd)
    fun hp => hnotin (hsort.ptrs.subset hp)).after hsort (List.forall_mem_nil _)

variable (env) in
theorem levelPass_fills (i : ℕ) (hnd : (ptrs (w.book s)).Nodup)
    (hnotin : pIncoming ∉ ptrs (w.book s)) :
    Answers s pIncoming w
      ((levelPass env s pIncoming i w).1, (levelPass env s pIncoming i w).2.2) := by
  have h := matchGroup_fills env i hnd hnotin
  simp only [levelPass]
  split
  · exact h.tail (eraseGroup_fills i _)
  · exact h

/-- Reading the key of `end()` is no trade. -/
theorem readEnd_fills (w : World) :
    Fills s pIncoming w { w with endReads := w.endReads + 1 } [] :=
  .nil rfl rfl (List.Subperm.refl _) fun _ _ => rfl

/-- **The outer loop.**  It goes on to the next level only while the incoming order is
open. -/
theorem matchLevels_fills : ∀ (n i : ℕ) {w : World}, (ptrs (w.book s)).Nodup →
    pIncoming ∉ ptrs (w.book s) → Answers s pIncoming w (matchLevels env s pIncoming n i w) := by
  intro n
  induction n with
  | zero => exact fun _ _ _ _ => .refl true _
  | succ n ih =>
      intro i w hnd hnotin
      have hpass := levelPass_fills env i hnd hnotin
      rw [matchLevels_succ]
      generalize levelPass env s pIncoming i w = pass at hpass ⊢
      obtain ⟨filled, i', w'⟩ := pass
      cases filled with
      | true => exact hpass
      | false =>
          rw [if_neg Bool.false_ne_true]
          split
          · split
            · exact hpass
            · obtain ⟨reports, hfills, hclosed⟩ := hpass
              exact (ih i' (hfills.nodup hnd) fun hp => hnotin (hfills.ptrs.subset hp)).after
                hfills (hclosed rfl)
          · split
            · exact hpass.tail (readEnd_fills w')
            · obtain ⟨reports, hfills, -⟩ := hpass.tail (readEnd_fills w')
              exact .yes hfills

variable (env) in
/-- **A call of `Book::match`.** -/
theorem matchOrder_fills (hnd : (ptrs (w.book s)).Nodup) (hnotin : pIncoming ∉ ptrs (w.book s)) :
    Answers s pIncoming w (matchOrder env s pIncoming w) := by
  unfold matchOrder
  split
  · exact .refl false w
  · split
    · exact .refl false w
    · exact matchLevels_fills _ 0 hnd hnotin

end Loops

/-! ### Between two calls

A call of `Book::match` finds a book of live orders, and a live incoming order.  Every order that
it completes stops to be live, either because it is erased from the book or because it is the
incoming one, so a line that was charged once is not charged again. -/

/-- **The reports so far, and the slots that may still trade.**  The reports are charged
to the first `count` lines, and the order of no live slot was completed. -/
structure Chargeable (count : ℕ) (live : Set ℕ) (w : World) : Prop where
  charged : ChargedReports count w.reports
  line : ∀ p ∈ live, ∃ n < count, (w.mem p).line = some n
  uncompleted : ∀ r ∈ w.reports, ∀ n, r.Completes n → ∀ p ∈ live, (w.mem p).line ≠ some n

namespace Chargeable

variable {w w' : World} {count : ℕ} {live live' : Set ℕ} {reports : List ReportEntry}

theorem subset (h : Chargeable count live w) (hsub : live' ⊆ live) : Chargeable count live' w where
  charged := h.charged
  line p hp := h.line p (hsub hp)
  uncompleted r hr n hn p hp := h.uncompleted r hr n hn p (hsub hp)

/-- Only the orders and the reports matter. -/
theorem congr (h : Chargeable count live w) (hmem : w'.mem = w.mem)
    (hreports : w'.reports = w.reports) : Chargeable count live w' where
  charged := by rw [hreports]; exact h.charged
  line := by rw [hmem]; exact h.line
  uncompleted := by rw [hreports, hmem]; exact h.uncompleted

/-- A run charges its reports: all but the last to the resting order, the last to
either. -/
theorem charged_fills (h : Chargeable count live w)
    (hinj : ∀ p q n, (w.mem p).line = some n → (w.mem q).line = some n → p = q)
    (hfills : Fills s pIncoming w w' reports) (hin : pIncoming ∈ live)
    (hnotin : pIncoming ∉ ptrs (w.book s)) (hbook : ∀ p ∈ ptrs (w.book s), p ∈ live) :
    ChargedReports count reports where
  settled r hr := by
    rcases hfills.empties r hr with hzero | hzero
    · obtain ⟨n, hn, hline⟩ := h.line _ (hbook _ (hfills.resting r hr).1)
      exact ⟨n, hn, .inr ⟨hzero, (hfills.resting r hr).2.2.trans hline⟩⟩
    · obtain ⟨n, hn, hline⟩ := h.line _ hin
      exact ⟨n, hn, .inl ⟨hzero, (hfills.incoming r hr).trans hline⟩⟩
  once := by
    refine hfills.once.imp_of_mem fun {r r'} hr hr' honce n hn hnames => ?_
    obtain ⟨hp, -, hline⟩ := hfills.resting r hr
    obtain ⟨hp', -, hline'⟩ := hfills.resting r' hr'
    rcases hn with ⟨hzero, -⟩ | ⟨-, hn⟩
    · exact honce.1 hzero
    · rw [hline] at hn
      rcases ReportEntry.names_iff.mp hnames with hn' | hn'
      · rw [hfills.incoming r' hr'] at hn'
        exact hnotin (hinj _ _ n hn hn' ▸ hp)
      · rw [hline'] at hn'
        exact honce.2 (hinj _ _ n hn hn')

/-- **A call of `Book::match`**, for a live order against a book of live orders.  What
stays live is neither completed as the incoming order nor erased from the book. -/
theorem fills (h : Chargeable count live w)
    (hinj : ∀ p q n, (w.mem p).line = some n → (w.mem q).line = some n → p = q)
    (hfills : Fills s pIncoming w w' reports) (hin : pIncoming ∈ live)
    (hnotin : pIncoming ∉ ptrs (w.book s)) (hbook : ∀ p ∈ ptrs (w.book s), p ∈ live)
    (hsub : live' ⊆ live)
    (hopen : pIncoming ∈ live' → ∀ r ∈ reports, r.entry1.leaves ≠ 0)
    (hkept : ∀ p ∈ live', p ∈ ptrs (w.book s) → p ∈ ptrs (w'.book s)) :
    Chargeable count live' w' where
  charged := by
    rw [hfills.log]
    refine h.charged.append (h.charged_fills hinj hfills hin hnotin hbook)
      fun r hr n hn r' hr' hnames => ?_
    -- a new report names live orders only
    rcases ReportEntry.names_iff.mp hnames with hn' | hn'
    · exact h.uncompleted r hr n hn _ hin ((hfills.incoming r' hr').symm.trans hn')
    · obtain ⟨hp, -, hline⟩ := hfills.resting r' hr'
      exact h.uncompleted r hr n hn _ (hbook _ hp) (hline.symm.trans hn')
  line p hp := by
    rw [(hfills.lines p).2]
    exact h.line p (hsub hp)
  uncompleted r hr n hn p hp hpn := by
    rw [(hfills.lines p).2] at hpn
    rw [hfills.log, List.mem_append] at hr
    rcases hr with hr | hr
    · exact h.uncompleted r hr n hn p (hsub hp) hpn
    · rcases hn with ⟨hzero, hn⟩ | ⟨hzero, hn⟩
      · rw [hfills.incoming r hr] at hn
        exact hopen (hinj _ _ n hpn hn ▸ hp) r hr hzero
      · obtain ⟨hmem, -, hline⟩ := hfills.resting r hr
        rw [hline] at hn
        have heq := hinj _ _ n hpn hn
        exact hfills.removed r hr hzero (hkept _ (heq ▸ hp) hmem)

end Chargeable

/-! ### The line loops -/

/-- The slots of both books. -/
def bookSlots (w : World) : Set ℕ := {p | ∃ s, p ∈ ptrs (w.book s)}

section Lines

variable {lines : List OrderLine} {st : Session}

theorem accounted_default : Chargeable 0 (bookSlots (default : World)) default where
  charged := .nil
  line p hp := by
    obtain ⟨s, hp⟩ := hp
    simp [ptrs, show (default : World).book s = SortedMap.empty from rfl] at hp
  uncompleted := List.forall_mem_nil _

/-- The new order of a line is live, under the line's number. -/
theorem SessionInv.construct_chargeable (hS : SessionInv lines st)
    (h : Chargeable lines.length (bookSlots st.toWorld) st.toWorld) (o : OrderLine) :
    Chargeable (lines ++ [o]).length (insert st.index (bookSlots st.toWorld)) (st.construct o) where
  charged := h.charged.mono (by simp)
  line p hp := by
    rcases Set.mem_insert_iff.mp hp with rfl | hp
    · exact ⟨lines.length, by simp, by rw [hS.construct_self]; rfl⟩
    · obtain ⟨n, hn, hline⟩ := h.line p hp
      obtain ⟨s, hp⟩ := hp
      rw [SessionInv.construct_of_ne o (hS.used s p hp).ne]
      exact ⟨n, by simp; omega, hline⟩
  uncompleted r hr n hn p hp hpn := by
    rcases Set.mem_insert_iff.mp hp with rfl | hp
    · rw [hS.construct_self] at hpn
      have hlt := hS.reportLines r hr n hn.names
      exact hlt.ne (Option.some.inj hpn).symm
    · obtain ⟨s, hps⟩ := hp
      rw [SessionInv.construct_of_ne o (hS.used s p hps).ne] at hpn
      exact h.uncompleted r hr n hn p ⟨s, hps⟩ hpn

/-- An order that was added is in a book. -/
theorem bookSlots_addOrder (w : World) (price : Price) (p : ℕ) :
    bookSlots (w.addOrder s price p) ⊆ insert p (bookSlots w) := by
  rintro q ⟨s', hq⟩
  rcases mem_ptrs_addOrder.mp hq with ⟨-, rfl⟩ | hq
  · exact Set.mem_insert _ _
  · exact Set.mem_insert_of_mem _ ⟨s', hq⟩

/-- **The matching of a new order.**  Any set of slots that are in a book afterwards, or
the new order if it stays open, remains live. -/
theorem SessionInv.matched_chargeable (hS : SessionInv lines st)
    (h : Chargeable lines.length (bookSlots st.toWorld) st.toWorld) (o : OrderLine)
    {full : Bool} {w : World}
    (hmatch : matchOrder env o.side.opposite st.index (st.construct o) = (full, w))
    {live : Set ℕ} (hlive : live ⊆ insert st.index (bookSlots w))
    (hfull : full = true → st.index ∉ live) : Chargeable (lines ++ [o]).length live w := by
  have hC := hS.construct_bookInv o
  have hnotin := hS.construct_free o o.side.opposite
  obtain ⟨reports, hfills, hopen⟩ := matchOrder_fills env (hC.nodup _) hnotin
  rw [hmatch] at hfills hopen
  have hM := hS.matched o hmatch
  refine (hS.construct_chargeable h o).fills hC.lineInj hfills (Set.mem_insert _ _) hnotin
    (fun p hp => Set.mem_insert_of_mem _ ⟨_, hp⟩) (fun p hp => ?_) (fun hp => hopen ?_)
    fun p hp hold => ?_
  · exact (hlive hp).imp_right fun ⟨s, hp⟩ => ⟨s, hM.ptrs s hp⟩
  · exact eq_false_of_ne_true fun hb => hfull hb hp
  · rcases hlive hp with rfl | ⟨s, hp⟩
    · exact absurd hold hnotin
    · by_cases hs : s = o.side.opposite
      · exact hs ▸ hp
      · -- an order of one book is not in the other
        rw [hfills.other s hs] at hp
        exact absurd ((hC.side_of_mem_ptrs hp).symm.trans (hC.side_of_mem_ptrs hold)) hs

/-- **One line of `ProcessNormalOrders`.** -/
theorem normalLine_chargeable (hS : SessionInv lines st)
    (h : Chargeable lines.length (bookSlots st.toWorld) st.toWorld) (o : OrderLine) :
    Chargeable (lines ++ [o]).length (bookSlots (normalLine env st o).toWorld)
      (normalLine env st o).toWorld := by
  obtain ⟨w, index, hcase, heq⟩ := normalLine_cases env hS o
  rw [heq]
  cases hcase with
  | zero hqty => exact (hS.construct_chargeable h o).subset (Set.subset_insert _ _)
  | filled hqty hmatch =>
      refine hS.matched_chargeable h o hmatch (Set.subset_insert _ _) fun _ hp => ?_
      obtain ⟨s, hp⟩ := hp
      exact hS.construct_free o s ((hS.matched o hmatch).ptrs s hp)
  | @rests w hqty hmatch =>
      have hopen := hS.matched_chargeable h o hmatch subset_rfl nofun
      exact (hopen.subset (bookSlots_addOrder w _ _)).congr rfl rfl

theorem normal_chargeable (env : Platform) (lines : List OrderLine) :
    Chargeable lines.length (bookSlots (processNormalOrders env lines).toWorld)
      (processNormalOrders env lines).toWorld := by
  induction lines using List.reverseRecOn with
  | nil => exact accounted_default
  | append_singleton lines o ih =>
      rw [processNormalOrders, List.foldl_append]
      exact normalLine_chargeable (normal_sessionInv env lines) ih o

/-- **The reading loop of `ProcessAuctionOrders`.** -/
theorem auctionRead_chargeable (lines : List OrderLine) :
    Chargeable lines.length (bookSlots (auctionRead lines).toWorld)
      (auctionRead lines).toWorld := by
  induction lines using List.reverseRecOn with
  | nil => exact accounted_default
  | append_singleton lines o ih =>
      have hS := (auctionRead_inv lines).toSessionInv
      rw [auctionRead, List.foldl_append]
      change Chargeable _ (bookSlots (auctionLine (auctionRead lines) o).toWorld)
        (auctionLine (auctionRead lines) o).toWorld
      rw [auctionLine_eq hS o]
      exact ((hS.construct_chargeable ih o).subset
        (bookSlots_addOrder ((auctionRead lines).construct o) _ _)).congr rfl rfl

end Lines

/-! ### The second pass

The auction matches the buy orders level by level, and does not erase them from the buy book.  A
buy order is therefore live until its turn has come, and not by being in the book, so the
invariant names the buy orders that are still to come. -/

/-- The slots that may still trade in the second pass: those of the sell book, and the
buy orders it has still to come to. -/
def waiting (buyOrders : List ℕ) (w : World) : Set ℕ :=
  {p | p ∈ ptrs (w.book .SELL) ∨ p ∈ buyOrders}

/-- **The invariant of the second pass**: the orders that may still trade are live, and of the two
orders of a report the second one is a sell order. -/
structure PassChargeable (count : ℕ) (buyOrders : List ℕ) (w : World) : Prop
    extends Chargeable count (waiting buyOrders w) w where
  sold : ∀ r ∈ w.reports, r.entry2.side = .SELL

section SecondPass

variable {count : ℕ}

/-- **One buy order** of the second pass. -/
theorem PassChargeable.matchOrder {w : World} {p : ℕ} {buyOrders : List ℕ} (hI : BookInv w)
    (hnd : (p :: buyOrders).Nodup) (hside : ∀ q ∈ p :: buyOrders, (w.mem q).side = .BUY)
    (h : PassChargeable count (p :: buyOrders) w) :
    PassChargeable count buyOrders (matchOrder env .SELL p w).2 := by
  have hp : (w.mem p).side = Side.SELL.opposite := hside p List.mem_cons_self
  have hnotin := hI.notMem_ptrs hp
  obtain ⟨reports, hfills, -⟩ := matchOrder_fills env (hI.nodup .SELL) hnotin
  refine ⟨h.fills hI.lineInj hfills (.inr List.mem_cons_self) hnotin (fun _ => .inl)
    (fun q hq => hq.imp (hfills.ptrs.subset ·) (List.mem_cons_of_mem _))
    (fun hin => ?_) (fun q hq hold => ?_), fun r hr => ?_⟩
  · -- the order is neither in the sell book nor among the orders to come
    rcases hin with hin | hin
    · exact absurd (hfills.ptrs.subset hin) hnotin
    · exact absurd hin (List.nodup_cons.mp hnd).1
  · refine hq.resolve_right fun hq => ?_
    have hsell := hI.side_of_mem_ptrs hold
    rw [hside q (List.mem_cons_of_mem _ hq)] at hsell
    cases hsell
  · rw [hfills.log, List.mem_append] at hr
    rcases hr with hr | hr
    · exact h.sold r hr
    · obtain ⟨hmem, hentry, -⟩ := hfills.resting r hr
      exact (congrArg OrderLine.side hentry).trans (hI.side_of_mem_ptrs hmem)

/-- **The inner loop** of the second pass, with the buy orders of the levels to come. -/
theorem matchBuyOrders_chargeable : ∀ {orders later : List ℕ} {w : World}, BookInv w →
    (orders ++ later).Nodup → (∀ q ∈ orders ++ later, (w.mem q).side = .BUY) →
    PassChargeable count (orders ++ later) w →
    PassChargeable count later (matchBuyOrders env orders w) := by
  intro orders later
  induction orders with
  | nil => exact fun _ _ _ h => h
  | cons p orders ih =>
      intro w hI hnd hside h
      have hp : (w.mem p).side = Side.SELL.opposite := hside p List.mem_cons_self
      have hsteps := (hI.matchOrder_run env hp).steps
      refine ih (MatchSteps.bookInv hsteps hp hI) (List.nodup_cons.mp hnd).2 (fun q hq => ?_)
        (h.matchOrder hI hnd hside)
      rw [((MatchSteps.frame hsteps).2.2.1 q).1]
      exact hside q (List.mem_cons_of_mem _ hq)

end SecondPass

section Auction

variable {lines : List OrderLine} {target : Price}

/-- The buy orders of a list of levels. -/
def levelOrders (levels : List (Price × OrderGroup)) : List ℕ := levels.flatMap fun e => e.2.mOrders

/-- **One level** of the second pass. -/
theorem passLevel_chargeable {count : ℕ} {w : World} {pre post : List (Price × OrderGroup)}
    {price : Price} {g : OrderGroup} (hI : BookInv w) (h : (w.book .BUY).Split pre price g post)
    (hP : PassChargeable count (g.mOrders ++ levelOrders post) w) :
    PassChargeable count (levelOrders post) (passLevel env pre.length g w) := by
  have hperm := (sortOrders_perm env w.mem g.mOrders).append_right (levelOrders post)
  have hptrs := ptrs_of_split h
  have hnd := hI.nodup .BUY
  rw [hptrs] at hnd
  refine matchBuyOrders_chargeable (hI.sort env h)
    (hperm.nodup_iff.mpr (List.nodup_append.mp hnd).2.1) (fun q hq => ?_) ⟨?_, hP.sold⟩
  · refine hI.side_of_mem_ptrs (w := w) (s := .BUY) ?_
    rw [hptrs]
    exact List.mem_append_right _ (hperm.subset hq)
  · refine (hP.subset fun q hq => ?_).congr rfl rfl
    rcases hq with hq | hq
    · rw [sortGroup_book_of_ne (by decide)] at hq
      exact .inl hq
    · exact .inr (hperm.subset hq)

/-- The slots of the opened books. -/
theorem waiting_open : waiting (ptrs ((auctionOpen lines).book .BUY))
    ((auctionOpen lines).setBook .SELL (restoreQty ((auctionOpen lines).book .SELL)))
      ⊆ bookSlots (auctionRead lines).toWorld := by
  have hopen : ∀ s, ptrs ((auctionOpen lines).book s) = ptrs ((auctionRead lines).book s) :=
    fun s => by rw [auctionOpen_book, (sameOrders_consolidateQty _).ptrs_eq]
  rintro q (hq | hq)
  · rw [World.setBook_book_self, (sameOrders_restoreQty _).ptrs_eq, hopen] at hq
    exact ⟨_, hq⟩
  · rw [hopen] at hq
    exact ⟨_, hq⟩

/-- **`ProcessAuctionOrders`.** -/
theorem auction_chargeable (env : Platform) (lines : List OrderLine) :
    PassChargeable lines.length [] (processAuctionOrders env lines) := by
  have hopen := auctionOpen_inv lines
  obtain ⟨pre, post, hentries, -, hP⟩ := secondPass_rule env (targetPrice (auctionOpen lines))
    (fun pre w => ∀ post, (w.book .BUY).entries = pre ++ post →
      PassChargeable lines.length (levelOrders post) w)
    (fun {pre price g post w} hI h _ hP post' hpost => by
      rw [(passLevel_run env hI h).2, List.append_cons] at hpost
      rw [← List.append_cancel_left hpost]
      exact passLevel_chargeable hI h (hP _ h))
    _ ((restore_step env hopen).bookInv hopen.toBookInv) (List.nil_append _).symm rfl
    fun post hpost => by
      rw [List.nil_append] at hpost
      rw [← hpost, World.setBook_book_of_ne _ _ _ (by decide)]
      refine ⟨((auctionRead_chargeable lines).subset waiting_open).congr rfl rfl, fun r hr => ?_⟩
      rw [World.setBook_reports, hopen.noReports] at hr
      cases hr
  have hend := hP post hentries
  exact ⟨hend.subset fun q hq => hq.imp_right fun hq => absurd hq List.not_mem_nil, hend.sold⟩

end Auction

/-! ### The buffer suffices -/

/-- **The reports of a rule fit the buffer.** -/
structure WithinBuffer (lines : List OrderLine) (w : World) : Prop where
  /-- every report completes an order, which is in no later report -/
  charged : ChargedReports lines.length w.reports
  /-- a resting order that was completed is in no level of its book -/
  removed : ∀ r ∈ w.reports, r.entry2.leaves = 0 →
    ∀ p ∈ ptrs (w.book r.entry2.side), (w.mem p).line ≠ r.entry2.line
  count : w.reports.length ≤ lines.length
  mapped : ∀ lastEmpty, w.reports.length ≤ mappedEntries lines lastEmpty

theorem Chargeable.withinBuffer {lines : List OrderLine} {live : Set ℕ} {w : World}
    (h : Chargeable lines.length live w)
    (hlive : ∀ r ∈ w.reports, ∀ p ∈ ptrs (w.book r.entry2.side), p ∈ live) :
    WithinBuffer lines w := by
  have hcount := h.charged.length_le fun _ _ => ReportEntry.Completes.names
  exact {
    charged := h.charged
    removed := fun r hr hzero p hp heq => by
      obtain ⟨n, -, hline⟩ := h.line p (hlive r hr p hp)
      exact h.uncompleted r hr n (.inr ⟨hzero, heq.symm.trans hline⟩) p (hlive r hr p hp) hline
    count := hcount
    mapped := fun lastEmpty => by
      unfold mappedEntries
      omega }

/-- **`addReport` never leaves the file that `init` mapped**, under either rule.  A report is
charged to the order that it completes, and no order is charged twice. -/
theorem reports_withinBuffer (env : Platform) (lines : List OrderLine) :
    WithinBuffer lines (processNormalOrders env lines).toWorld ∧
      WithinBuffer lines (processAuctionOrders env lines) := by
  constructor
  · exact (normal_chargeable env lines).withinBuffer fun r _ p hp => ⟨_, hp⟩
  · have h := auction_chargeable env lines
    refine h.withinBuffer fun r hr p hp => ?_
    rw [h.sold r hr] at hp
    exact .inl hp

end LinuxProgram.PrestoLabs
