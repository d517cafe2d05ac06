import LinuxProgram.PrestoLabs.NormalBook

/-!
# What becomes of an order under the normal rule

Every line with a quantity is either completely executed or still resting in the
book of its side (`Accounted`), with one exception.  When an order has gone
through every level of the opposite book, `Book::match` compares its price with
the key of `mOrderMap.end()`; if that comparison comes out false the loop ends and
the function returns `true`, although quantity may be left, and
`ProcessNormalOrders` does not add the order to its book.

`SweepsBook` is that situation, as a condition on the state before the line;
`normal_keeps_quantity_iff` says that no quantity is lost exactly when it never
arises.
-/

namespace LinuxProgram.PrestoLabs

open Lib

variable {env : Platform}

/-! ### The law -/

/-- The quantity of the reports that name line `n`. -/
def filledQty (w : World) (n : ℕ) : ℕ := tradedQty (fun r => r.names n) w.reports

/-- The slots of both books that hold the order of line `n`. -/
def restingSlots (w : World) (n : ℕ) : List ℕ :=
  (ptrs (w.book .BUY) ++ ptrs (w.book .SELL)).filter fun p => (w.mem p).line = some n

/-- **The quantity of line `n`, the order `o`, is accounted for.** -/
inductive Accounted (w : World) (n : ℕ) (o : OrderLine) : Prop
  /-- the order does not rest, and is executed completely -/
  | done (hslots : restingSlots w n = []) (hqty : o.qty.toNat = filledQty w n)
  /-- it rests exactly once, on its own side at its own price, with what is not executed -/
  | rests {p : ℕ} {e : Price × OrderGroup} (hslots : restingSlots w n = [p])
      (hlevel : e ∈ (w.book o.side).entries) (hprice : e.1 = o.price) (hp : p ∈ e.2.mOrders)
      (hqty : o.qty.toNat = filledQty w n + (w.mem p).leaves)

/-- Every order of positive quantity is accounted for. -/
def KeepsQuantity (lines : List OrderLine) (w : World) : Prop :=
  ∀ n o, lines[n]? = some o → o.qty ≠ 0 → Accounted w n o

/-- `Book::match` returns `true` for the next line only if it was filled. -/
def HonestMatch (env : Platform) (st : Session) (o : OrderLine) : Prop :=
  o.qty ≠ 0 → (matchOrder env o.side.opposite st.index (st.construct o)).1 = true →
    ((matchOrder env o.side.opposite st.index (st.construct o)).2.mem st.index).leaves = 0

/-- **No quantity is lost** after any number of lines. -/
def NoQuantityLost (env : Platform) (lines : List OrderLine) : Prop :=
  ∀ k ≤ lines.length,
    KeepsQuantity (lines.take k) (processNormalOrders env (lines.take k)).toWorld ∧
    ∀ o, lines[k]? = some o → HonestMatch env (processNormalOrders env (lines.take k)) o

/-- **The order sweeps the opposite book**: it accepts every level of a book that
is not empty, asks for more than is left there, and the comparison with the key of
`end()` that follows comes out false. -/
structure SweepsBook (env : Platform) (st : Session) (o : OrderLine) : Prop where
  levels : (st.book o.side.opposite).entries ≠ []
  accepts : ∀ e ∈ (st.book o.side.opposite).entries, cmp o.side.opposite o.price e.1 = false
  more : restingQty st.toWorld o.side.opposite (fun _ => true) < o.qty.toNat
  endKey : env.endKeyCmp st.endReads = false

/-! ### Matching runs and quantity

While a new order is being matched its line is neither executed nor resting, and so the invariant
has a `pending` line.  All other lines keep their account with every step: what a trade takes from
a resting order is in the report of it, and an order leaves its book only when it is filled. -/

section Matching

variable {s : Side} {pIncoming : ℕ} {w w' : World}

/-- What the incoming order loses is what the book loses. -/
theorem MatchSteps.conserves (h : MatchSteps env s pIncoming w w') (hI : BookInv w)
    (hside : (w.mem pIncoming).side = s.opposite) :
    (w'.mem pIncoming).leaves + restingQty w s (fun _ => true)
      = (w.mem pIncoming).leaves + restingQty w' s (fun _ => true) := by
  induction h with
  | refl => rfl
  | tail hsteps hstep ih =>
      have hside' := (MatchSteps.side_eq hsteps pIncoming).trans hside
      obtain ⟨key, c, hm⟩ := hstep.moves (MatchSteps.bookInv hsteps hside hI) hside'
      have h1 := hm.leaves
      have h2 := hm.resting fun _ => true
      rw [if_pos rfl] at h2
      omega

/-- Line `n` rests in one of the books. -/
def Held (w : World) (n : ℕ) : Prop := ∃ s, ∃ p ∈ ptrs (w.book s), (w.mem p).line = some n

/-- **An order leaves the books only when it is filled.** -/
theorem MatchStep.held (h : MatchStep env s pIncoming w w') (hL : LiveBooks w) {n : ℕ}
    (hn : Held w n) : Held w' n ∨ ∃ p, (w'.mem p).line = some n ∧ (w'.mem p).leaves = 0 := by
  obtain ⟨s', p, hp, hline⟩ := hn
  have hline' : (w'.mem p).line = some n := (h.toOrderLine p).2.trans hline
  by_cases hs : s' = s
  · subst hs
    refine or_iff_not_imp_right.mpr fun hleft => ⟨s', p, ?_, hline'⟩
    have hleaves : (w'.mem p).leaves ≠ 0 := fun h0 => hleft ⟨p, hline', h0⟩
    cases h with
    | sort h =>
        rw [ptrs_of_split h] at hp
        rw [ptrs_of_split (sortGroup_split _ h)]
        exact ((((sortOrders_perm _ _ _).append_right _).append_left _).symm).subset hp
    | @fill pre key g post r os h hg hne hdead hkey hprice =>
        rw [fillStep_mem hne] at hleaves
        rw [ptrs_of_split h, hg] at hp
        rw [ptrs_of_split (fillStep_split h hg hne)]
        simp only [List.mem_append, List.mem_cons] at hp ⊢
        rcases hp with hp | (rfl | hp) | hp
        · exact .inl hp
        · exact .inr (.inl (by rw [if_neg hleaves]; exact List.mem_cons_self))
        · refine .inr (.inl ?_)
          split
          · exact hp
          · exact List.mem_cons_of_mem _ hp
        · exact .inr (.inr hp)
    | @drop pre key g post h hzero =>
        have hnil : p ∉ g.mOrders := fun hg => by
          have hle := leaves_le_leavesSum w.mem hg
          have hlive := hL s' _ h.mem
          rw [← hlive.1] at hle
          exact hlive.2 p hg (by dsimp only at hle; omega)
        rw [ptrs_of_split h] at hp
        rw [ptrs, eraseGroup_entries h, List.flatMap_append]
        simp only [List.mem_append] at hp ⊢
        tauto
    | readEnd => exact hp
  · exact .inl ⟨s', p, by rw [h.book_of_ne hs]; exact hp, hline'⟩

/-- Reports about a line are only added while its order is in memory. -/
theorem MatchStep.filledQty_cases (h : MatchStep env s pIncoming w w') (n : ℕ) :
    filledQty w n ≤ filledQty w' n ∧
      (filledQty w' n = filledQty w n ∨ ∃ p, (w'.mem p).line = some n) := by
  cases h with
  | sort h => exact ⟨le_rfl, .inl rfl⟩
  | @fill pre key g post r os h hg hne hdead hkey hprice =>
      rw [filledQty, filledQty, fillStep_reports hne, tradedQty_concat]
      refine ⟨Nat.le_add_right _ _, ?_⟩
      rw [fillStep_mem hne]
      split
      · rename_i hnames
        rcases crossReport_names.mp hnames with hn | hn
        · exact .inr ⟨_, (tradedMem_line _).trans hn⟩
        · exact .inr ⟨_, (tradedMem_line _).trans hn⟩
      · exact .inl rfl
  | drop h => exact ⟨le_rfl, .inl rfl⟩
  | readEnd => exact ⟨le_rfl, .inl rfl⟩

/-- **The invariant of quantity.**  Every line is executed, or rests, or is the
`pending` one, which is being matched. -/
structure QuantityInv (lines : List OrderLine) (pending : Option ℕ) (w : World) : Prop
    extends BookInv w where
  live : LiveBooks w
  balanced : Balanced w.toExchange
  origin : ∀ p n, (w.mem p).line = some n → lines[n]? = some (w.mem p).toOrderLine
  atMost : ∀ n o, lines[n]? = some o → filledQty w n ≤ o.qty.toNat
  kept : ∀ n o, lines[n]? = some o →
    o.qty.toNat ≤ filledQty w n ∨ Held w n ∨ pending = some n

variable {lines : List OrderLine} {pending : Option ℕ}

/-- The quantity of a line whose order is in memory. -/
theorem leaves_add_filledQty (hB : Balanced w.toExchange)
    (horigin : ∀ p n, (w.mem p).line = some n → lines[n]? = some (w.mem p).toOrderLine)
    {p n : ℕ} {o : OrderLine} (hp : (w.mem p).line = some n) (hn : lines[n]? = some o) :
    (w.mem p).leaves + filledQty w n = o.qty.toNat := by
  have ho : (w.mem p).toOrderLine = o := Option.some.inj ((horigin p n hp).symm.trans hn)
  rw [← ho]
  exact hB.order p n hp

/-- **A matching step keeps every line accounted for.** -/
theorem MatchStep.quantityInv (h : MatchStep env s pIncoming w w')
    (hside : (w.mem pIncoming).side = s.opposite)
    (hfree : ∀ s', pIncoming ∉ ptrs (w.book s')) (hQ : QuantityInv lines pending w) :
    QuantityInv lines pending w' := by
  have hB : Balanced w'.toExchange :=
    EngineStep.balanced (.trade hside h) hQ.toBookInv hQ.balanced
  have horigin : ∀ p n, (w'.mem p).line = some n →
      lines[n]? = some (w'.mem p).toOrderLine := by
    intro p n hp
    rw [(h.toOrderLine p).1]
    rw [(h.toOrderLine p).2] at hp
    exact hQ.origin p n hp
  exact {
    toBookInv := h.bookInv hside hQ.toBookInv
    live := h.liveBooks hQ.toBookInv hside hfree hQ.live
    balanced := hB
    origin := horigin
    atMost := fun n o hn => by
      rcases (h.filledQty_cases n).2 with heq | ⟨p, hp⟩
      · rw [heq]
        exact hQ.atMost n o hn
      · have := leaves_add_filledQty hB horigin hp hn
        omega
    kept := fun n o hn => by
      rcases hQ.kept n o hn with hfull | hheld | hpend
      · exact .inl (hfull.trans (h.filledQty_cases n).1)
      · rcases h.held hQ.live hheld with hheld | ⟨p, hp, hzero⟩
        · exact .inr (.inl hheld)
        · have := leaves_add_filledQty hB horigin hp hn
          exact .inl (by omega)
      · exact .inr (.inr hpend) }

/-- **A matching run keeps every line accounted for.** -/
theorem MatchSteps.quantityInv (h : MatchSteps env s pIncoming w w')
    (hside : (w.mem pIncoming).side = s.opposite)
    (hfree : ∀ s', pIncoming ∉ ptrs (w.book s')) (hQ : QuantityInv lines pending w) :
    QuantityInv lines pending w' := by
  induction h with
  | refl => exact hQ
  | tail hsteps hstep ih =>
      refine hstep.quantityInv ((MatchSteps.side_eq hsteps pIncoming).trans hside)
        (fun s' hp => ?_) ih
      exact hfree s' (MatchSteps.ptrs_subset hsteps s' hp)

end Matching

/-! ### One line

Behind the matching the pending order is either filled, or added to its book with what is left, or
forgotten.  Which of these it is depends on the value that `Book::match` returns, and the last
case is the one in which it returns `true` with some quantity left. -/

section Line

variable {lines : List OrderLine} {st : Session}

/-- The quantity left on the opposite book is not touched by the construction. -/
theorem NormalInv.construct_restingQty (h : NormalInv lines st) (o : OrderLine) (s : Side)
    (φ : Price → Bool) : restingQty (st.construct o) s φ = restingQty st.toWorld s φ := by
  refine SortedMap.sumWhere_congr _ _ fun e he _ => leavesSum_congr fun p hp => ?_
  rw [SessionInv.construct_of_ne o]
  rintro rfl
  exact absurd (h.used s _ (List.mem_flatMap.mpr ⟨e, he, hp⟩)) (lt_irrefl _)

variable (env) in
/-- **`Book::match` returns `true` for an unfilled order exactly on a sweep.** -/
theorem NormalInv.honest_iff (h : NormalInv lines st) (o : OrderLine) :
    HonestMatch env st o ↔ ¬ SweepsBook env st o := by
  have hrun := normalMatch_run env h.toSessionInv o
  have hself := h.construct_self o
  have hside : ((st.construct o).mem st.index).side = o.side.opposite.opposite := by simp [hself]
  have hprice : ((st.construct o).mem st.index).price = o.price := by rw [hself]; rfl
  have hcons := MatchSteps.conserves hrun.steps (h.construct_bookInv o) hside
  rw [h.construct_restingQty, hself, OrderEntry.ofLine_leaves] at hcons
  have hqty : o.qty ≠ 0 ↔ o.qty.toNat ≠ 0 := by
    rw [ne_eq, ne_eq, ← UInt32.toNat_inj]
    rfl
  rw [HonestMatch, hqty]
  generalize matchOrder env o.side.opposite st.index (st.construct o) = r at hrun hcons
  have hout := hrun.outcome
  constructor
  · intro hhonest hsweep
    have hmore := hsweep.more
    have hleft : (r.2.mem st.index).leaves ≠ 0 := by omega
    generalize hb : r.1 = b at hout
    cases hout with
    | filled hleaves _ => exact hleft hleaves
    | noBook hempty _ => exact hsweep.levels hempty
    | stopped hsplit _ hcmp _ =>
        obtain ⟨e, he, hkey⟩ := MatchSteps.keys_subset hrun.steps hsplit.mem
        have hacc := hsweep.accepts e he
        rw [hkey, ← hprice, ← MatchSteps.price_eq hrun.steps st.index, hcmp] at hacc
        cases hacc
    | exhausted _ _ _ _ =>
        refine hleft (hhonest (by omega) ?_)
        rw [hb]
        exact congrArg (! ·) hsweep.endKey
  · intro hsweep hpos hfull
    rw [hfull] at hout
    generalize hb : true = b at hout
    cases hout with
    | filled hleaves _ => exact hleaves
    | noBook _ _ => cases hb
    | stopped _ _ _ _ => cases hb
    | exhausted hcross hne hdead _ =>
        by_contra hleft
        refine hsweep ⟨hne, fun e he => ?_, ?_, ?_⟩
        · rw [← hprice]
          exact hcross e he
        · rw [restingQty_eq_zero fun e he _ => hdead e he] at hcons
          omega
        · simpa [Session.construct, World.setEntry] using hb

/-- The last line of a list, or an earlier one. -/
theorem getElem?_concat_cases {n : ℕ} {o o' : OrderLine} (h : (lines ++ [o])[n]? = some o') :
    lines[n]? = some o' ∨ n = lines.length ∧ o' = o := by
  rw [Agents.getElem?_concat] at h
  split at h
  · exact .inr ⟨‹_›, (Option.some.inj h).symm⟩
  · exact .inl h

theorem SessionInv.filledQty_new (h : SessionInv lines st) (o : OrderLine) :
    filledQty (st.construct o) lines.length = 0 := by
  have hnone : st.reports.filter (fun r => r.names lines.length) = [] := by
    refine List.filter_eq_nil_iff.mpr fun r hr hn => ?_
    exact absurd (h.reportLines r hr _ hn) (lt_irrefl _)
  change tradedQty _ st.reports = 0
  rw [tradedQty, hnone]
  rfl

/-- After the construction the new line is pending. -/
theorem QuantityInv.construct (hQ : QuantityInv lines none st.toWorld) (h : NormalInv lines st)
    (o : OrderLine) : QuantityInv (lines ++ [o]) (some lines.length) (st.construct o) where
  toBookInv := h.construct_bookInv o
  live := h.construct_live o
  balanced := (h.construct_step default o).balanced h.toBookInv hQ.balanced
  origin _ _ hp := h.construct_origin o hp
  atMost n o' hn := by
    rcases getElem?_concat_cases hn with hn | ⟨rfl, rfl⟩
    · exact hQ.atMost n o' hn
    · rw [h.filledQty_new o']
      exact Nat.zero_le _
  kept n o' hn := by
    rcases getElem?_concat_cases hn with hn | ⟨rfl, rfl⟩
    · rcases hQ.kept n o' hn with hfull | ⟨s, p, hp, hline⟩ | hpend
      · exact .inl hfull
      · refine .inr (.inl ⟨s, p, hp, ?_⟩)
        rwa [SessionInv.construct_of_ne o]
        rintro rfl
        exact absurd (h.used s _ hp) (lt_irrefl _)
      · cases hpend
    · exact .inr (.inr rfl)

/-- The pending line is settled. -/
theorem QuantityInv.settle {lines : List OrderLine} {m : ℕ} {w : World}
    (hQ : QuantityInv lines (some m) w)
    (hm : ∀ o, lines[m]? = some o → o.qty.toNat ≤ filledQty w m ∨ Held w m) :
    QuantityInv lines none w where
  toBookInv := hQ.toBookInv
  live := hQ.live
  balanced := hQ.balanced
  origin := hQ.origin
  atMost := hQ.atMost
  kept n o hn := by
    rcases hQ.kept n o hn with hfull | hheld | hpend
    · exact .inl hfull
    · exact .inr (.inl hheld)
    · obtain rfl : m = n := Option.some.inj hpend
      rcases hm o hn with hfull | hheld
      · exact .inl hfull
      · exact .inr (.inl hheld)

/-- Adding an order to its book moves no quantity. -/
theorem QuantityInv.addOrder {pending : Option ℕ} {w : World} {s : Side} {p : ℕ}
    (hQ : QuantityInv lines pending w) (hslot : p ∉ ptrs (w.book s))
    (hside : (w.mem p).side = s) (hleaves : (w.mem p).leaves ≠ 0) :
    QuantityInv lines pending (w.addOrder s (w.mem p).getPrice p) where
  toBookInv := hQ.toBookInv.addOrder hslot hside
  live := hQ.live.addOrder hleaves
  balanced := hQ.balanced.congr rfl rfl rfl
  origin := hQ.origin
  atMost := hQ.atMost
  kept n o hn := by
    rcases hQ.kept n o hn with hfull | ⟨s', q, hq, hline⟩ | hpend
    · exact .inl hfull
    · exact .inr (.inl ⟨s', q, mem_ptrs_addOrder.mpr (.inr hq), hline⟩)
    · exact .inr (.inr hpend)

/-- **One line that does not sweep the opposite book keeps every line accounted
for.** -/
theorem normalLine_quantityInv (h : NormalInv lines st) (hQ : QuantityInv lines none st.toWorld)
    (o : OrderLine) (hsweep : ¬ SweepsBook env st o) :
    QuantityInv (lines ++ [o]) none (normalLine env st o).toWorld := by
  have hC := hQ.construct h o
  have hself := h.construct_self o
  have hside : ((st.construct o).mem st.index).side = o.side.opposite.opposite := by simp [hself]
  have hhonest := (h.honest_iff env o).mpr hsweep
  obtain ⟨w, index, hcase, heq⟩ := normalLine_cases env h.toSessionInv o
  rw [heq]
  change QuantityInv (lines ++ [o]) none w
  cases hcase with
  | zero hqty =>
      refine hC.settle fun o' hn => .inl ?_
      obtain rfl : o = o' := by simpa using hn
      rw [hqty]
      exact Nat.zero_le _
  | filled hqty hmatch =>
      have hrun := normalMatch_run env h.toSessionInv o
      have hhonest := hhonest hqty (by rw [hmatch])
      rw [hmatch] at hrun hhonest
      have hzero : (w.mem st.index).leaves = 0 := hhonest
      have hW : QuantityInv (lines ++ [o]) (some lines.length) w :=
        MatchSteps.quantityInv hrun.steps hside (h.construct_free o) hC
      have hline : (w.mem st.index).line = some lines.length := by
        rw [((MatchSteps.frame hrun.steps).2.2.1 st.index).2, hself]
        rfl
      refine hW.settle fun o' hn => .inl ?_
      have := leaves_add_filledQty hW.balanced hW.origin hline hn
      omega
  | @rests w hqty hmatch =>
      obtain ⟨hrun, -⟩ := h.matched o hmatch
      have hframe := MatchSteps.frame hrun.steps
      have hW := MatchSteps.quantityInv hrun.steps hside (h.construct_free o) hC
      have hslot : st.index ∉ ptrs (w.book o.side) := by
        rw [hframe.2.2.2 o.side (Side.ne_opposite _)]
        exact h.construct_free o o.side
      have hside' : (w.mem st.index).side = o.side := by
        rw [MatchSteps.side_eq hrun.steps st.index, hself]
        rfl
      have hleaves : (w.mem st.index).leaves ≠ 0 := fun h0 =>
        absurd (hrun.unfilled h0 (h.construct_leaves_ne o hqty)) Bool.false_ne_true
      refine (hW.addOrder hslot hside' hleaves).settle fun _ _ => .inr ⟨o.side, st.index, ?_, ?_⟩
      · exact mem_ptrs_addOrder.mpr (.inl ⟨rfl, rfl⟩)
      · change (w.mem st.index).line = _
        rw [(hframe.2.2.1 st.index).2, hself]
        rfl

end Line

/-! ### Every run -/

theorem quantityInv_default : QuantityInv [] none default where
  toBookInv := bookInv_default
  live := normalInv_default.live
  balanced := balanced_default
  origin := sessionInv_default.origin
  atMost n o hn := by simp at hn
  kept n o hn := by simp at hn

/-- The order of a slot is what its line says, so the slots of a line are one. -/
theorem QuantityInv.accounted {lines : List OrderLine} {w : World}
    (hQ : QuantityInv lines none w) {n : ℕ} {o : OrderLine} (hn : lines[n]? = some o) :
    Accounted w n o := by
  by_cases hheld : Held w n
  · obtain ⟨s, p, hp, hline⟩ := hheld
    have ho : (w.mem p).toOrderLine = o := Option.some.inj ((hQ.origin p n hline).symm.trans hn)
    have hs : s = o.side := by
      rw [← ho]
      exact (hQ.side_of_mem_ptrs hp).symm
    subst hs
    obtain ⟨e, he, hpe⟩ := List.mem_flatMap.mp hp
    refine .rests (p := p) (e := e) ?_ he ?_ hpe ?_
    · have hmem : p ∈ ptrs (w.book .BUY) ++ ptrs (w.book .SELL) := by
        rw [List.mem_append]
        cases h : o.side
        · exact .inl (h ▸ hp)
        · exact .inr (h ▸ hp)
      refine List.perm_singleton.mp ((List.perm_ext_iff_of_nodup
        (hQ.ptrs_append_nodup.filter _) (List.nodup_singleton p)).mpr fun q => ?_)
      rw [List.mem_filter, List.mem_singleton, decide_eq_true_eq]
      constructor
      · exact fun hq => hQ.lineInj q p n hq.2 hline
      · rintro rfl
        exact ⟨hmem, hline⟩
    · rw [← ho]
      exact (hQ.own _ e he p hpe).2.symm
    · have := leaves_add_filledQty hQ.balanced hQ.origin hline hn
      omega
  · refine .done (List.filter_eq_nil_iff.mpr fun p hp hline => hheld ?_) ?_
    · rcases List.mem_append.mp hp with hp | hp
      · exact ⟨.BUY, p, hp, by simpa using hline⟩
      · exact ⟨.SELL, p, hp, by simpa using hline⟩
    · have hle := hQ.atMost n o hn
      rcases hQ.kept n o hn with hfull | h | h
      · omega
      · exact absurd h hheld
      · cases h

/-- **No quantity is lost exactly when no order sweeps the opposite book.** Behind the last level
`Book::match` may answer that the order is filled, and then what is left of it goes into no book. -/
theorem normal_keeps_quantity_iff (env : Platform) (lines : List OrderLine) :
    NoQuantityLost env lines ↔
      ∀ k o, lines[k]? = some o → ¬ SweepsBook env (processNormalOrders env (lines.take k)) o := by
  constructor
  · intro h k o hk
    have hlt := (List.getElem?_eq_some_iff.mp hk).1
    exact ((normal_inv env _).honest_iff _ o).mp ((h k hlt.le).2 o hk)
  · intro h
    have hrun : ∀ k ≤ lines.length,
        QuantityInv (lines.take k) none (processNormalOrders env (lines.take k)).toWorld := by
      intro k
      induction k with
      | zero => exact fun _ => quantityInv_default
      | succ k ih =>
          intro hk
          have hlast := List.getElem?_eq_getElem (l := lines) (i := k) (by omega)
          rw [List.take_add_one, hlast, Option.toList_some, processNormalOrders, List.foldl_append]
          exact normalLine_quantityInv (normal_inv env _) (ih (by omega)) _ (h k _ hlast)
    exact fun k hk => ⟨fun n o hn _ => (hrun k hk).accounted hn,
      fun o ho => ((normal_inv env _).honest_iff _ o).mpr (h k o ho)⟩

/-- A machine on which the comparison with the key of `end()` is always false. -/
def endKeyFalse : Platform :=
  { normalRuleApply := true, sort := StdSort.insertion, endKeyCmp := fun _ => false }

/-- Selling 1 and then buying 2 at the same price: the second unit of the buy order
is neither executed nor added to the book. -/
theorem sweep_loses_quantity : ¬ ∀ env lines, NoQuantityLost env lines := by
  intro h
  let sell : OrderLine :=
    { id := "1", party := "A", price := 10000, qty := 1, sequence := 1, side := .SELL }
  let buy : OrderLine :=
    { id := "2", party := "B", price := 10000, qty := 2, sequence := 2, side := .BUY }
  have hkeeps := (h endKeyFalse [sell, buy] 2 (by decide)).1 1 buy rfl (by decide)
  cases hkeeps with
  | done _ hqty => exact absurd hqty (by decide)
  | rests hslots =>
      have hnone : restingSlots (processNormalOrders endKeyFalse [sell, buy]).toWorld 1 = [] := by
        decide
      rw [show List.take 2 [sell, buy] = [sell, buy] from rfl, hnone] at hslots
      cases hslots

end LinuxProgram.PrestoLabs
