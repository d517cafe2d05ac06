import LinuxProgram.PrestoLabs.Balance

/-!
# The books under the normal rule

Under the normal rule no total is ever rewritten, so the running total of a level
is exact (`LevelLive`), an emptied level is erased, and the two books never cross.
`NormalInv` collects this for the state between two lines; `normal_books_wellFormed`
reads the order-book invariant off it.
-/

namespace LinuxProgram.PrestoLabs

open Lib

variable {env : Platform} {s : Side} {pIncoming : ℕ} {w w' : World}

theorem cmp_opposite (s : Side) (p q : Price) : cmp s.opposite p q = cmp s q p := by
  cases s <;> rfl

/-! ### Levels that are exact -/

/-- The running total of a level is the quantity left on its orders, and all of
them have some. -/
def LevelLive (mem : ℕ → OrderEntry) (g : OrderGroup) : Prop :=
  g.mLeavesQty = leavesSum mem g.mOrders ∧ ∀ p ∈ g.mOrders, (mem p).leaves ≠ 0

/-- Every level of both books is exact. -/
def LiveBooks (w : World) : Prop := ∀ s, ∀ e ∈ (w.book s).entries, LevelLive w.mem e.2

theorem LevelLive.congr {mem mem' : ℕ → OrderEntry} {g : OrderGroup} (h : LevelLive mem g)
    (hmem : ∀ p ∈ g.mOrders, mem' p = mem p) : LevelLive mem' g := by
  refine ⟨h.1.trans (leavesSum_congr fun p hp => by rw [hmem p hp]), fun p hp => ?_⟩
  rw [hmem p hp]
  exact h.2 p hp

/-- A fill keeps the level it is made on exact. -/
theorem LevelLive.fill {g : OrderGroup} {r : ℕ} {os : List ℕ} (h : LevelLive w.mem g)
    (hg : g.mOrders = r :: os) (hr : r ∉ os) (hin : pIncoming ∉ os) :
    LevelLive (tradedMem w r pIncoming)
      { g with
        mOrders := if (tradedMem w r pIncoming r).leaves = 0 then os else r :: os
        mLeavesQty := g.mLeavesQty - (crossed w r pIncoming).toNat } := by
  have hsum := leavesSum_fill (w := w) hr hin
  have htotal := h.1
  rw [hg] at htotal
  have hos : ∀ p ∈ os, (tradedMem w r pIncoming p).leaves ≠ 0 := by
    intro p hp
    have hpr : p ≠ r := fun e => hr (e ▸ hp)
    have hpin : p ≠ pIncoming := fun e => hin (e ▸ hp)
    rw [tradedMem_of_ne hpr hpin]
    exact h.2 p (by simp [hg, hp])
  constructor
  · dsimp only
    omega
  · intro p hp
    by_cases hz : (tradedMem w r pIncoming r).leaves = 0
    · exact hos p (by simpa [hz] using hp)
    · rcases List.mem_cons.mp (by simpa [hz] using hp : p ∈ r :: os) with rfl | hp
      · exact hz
      · exact hos p hp

/-- **A matching step keeps the levels exact.** -/
theorem MatchStep.liveBooks (h : MatchStep env s pIncoming w w') (hI : BookInv w)
    (hside : (w.mem pIncoming).side = s.opposite)
    (hfree : ∀ s', pIncoming ∉ ptrs (w.book s')) (hL : LiveBooks w) : LiveBooks w' := by
  intro s' e he
  by_cases hs : s' = s
  · subst hs
    cases h.levelStep hI hside e he with
    | kept he hmem => exact (hL _ e he).congr hmem
    | sorted hg hmem hperm =>
        obtain ⟨htotal, hpos⟩ := hL _ _ hg
        rw [hmem]
        exact ⟨htotal.trans (leavesSum_perm hperm.symm), fun p hp => hpos p (hperm.subset hp)⟩
    | filled hg hhead hr hin hne hmem =>
        rw [hmem]
        exact (hL _ _ hg).fill hhead hr hin
  · rw [h.book_of_ne hs] at he
    refine (hL s' e he).congr fun p hp => ?_
    have hp : p ∈ ptrs (w.book s') := List.mem_flatMap.mpr ⟨e, he, hp⟩
    cases h with
    | sort h => rfl
    | @fill pre key g post r os h hg hne hdead hkey hprice =>
        rw [fillStep_mem hne]
        refine tradedMem_of_ne ?_ ?_
        · rintro rfl
          have := hI.side_of_mem_ptrs hp
          have := (hI.own s _ h.mem p (by simp [hg])).1
          exact hs (by simp_all)
        · rintro rfl
          exact hfree s' hp
    | drop h hzero => rfl
    | readEnd => rfl

/-- **A matching run keeps the levels exact.** -/
theorem MatchSteps.liveBooks (h : MatchSteps env s pIncoming w w') (hI : BookInv w)
    (hside : (w.mem pIncoming).side = s.opposite)
    (hfree : ∀ s', pIncoming ∉ ptrs (w.book s')) (hL : LiveBooks w) : LiveBooks w' := by
  induction h with
  | refl => exact hL
  | tail hsteps hstep ih =>
      have hside' := (MatchSteps.side_eq hsteps pIncoming).trans hside
      refine hstep.liveBooks (MatchSteps.bookInv hsteps hside hI) hside' (fun s' hp => ?_) ih
      exact hfree s' (MatchSteps.ptrs_subset hsteps s' hp)

/-- Adding an order with quantity keeps the levels exact. -/
theorem LiveBooks.addOrder (hL : LiveBooks w) {p : ℕ} {price : Price}
    (hp : (w.mem p).leaves ≠ 0) : LiveBooks (w.addOrder s price p) := by
  intro s' e he
  by_cases hs : s' = s
  · subst hs
    rcases mem_addOrder he with he | ⟨g, rfl, hg⟩
    · exact hL _ e he
    · have hold : LevelLive w.mem g := by
        rcases hg with rfl | hg
        · exact ⟨rfl, by simp⟩
        · exact hL _ _ hg
      refine ⟨?_, fun q hq => ?_⟩
      · change g.mLeavesQty + (w.mem p).leaves = leavesSum w.mem (g.mOrders ++ [p])
        simp [hold.1]
      · rcases List.mem_append.mp hq with hq | hq
        · exact hold.2 q hq
        · rw [List.mem_singleton.mp hq]
          exact hp
  · rw [addOrder_book_of_ne hs] at he
    exact hL _ e he

/-! ### The invariant of the normal rule

Between two lines no buy price is at or above a sell price.  An order that comes to rest was
matched before, and what was not filled of it was not filled because no level was left that it
accepts; so it does not cross the other book. -/

/-- Every price in the book of one side is better than the other side accepts. -/
def Uncrossed (w : World) : Prop :=
  ∀ s, ∀ e ∈ (w.book s).entries, ∀ e' ∈ (w.book s.opposite).entries, cmp s e'.1 e.1 = true

/-- **The invariant of `ProcessNormalOrders`** between two lines. -/
structure NormalInv (lines : List OrderLine) (st : Session) : Prop
    extends SessionInv lines st where
  live : LiveBooks st.toWorld
  nonempty : ∀ s, ∀ e ∈ (st.book s).entries, e.2.mLeavesQty ≠ 0
  uncrossed : Uncrossed st.toWorld

theorem normalInv_default : NormalInv [] default where
  toSessionInv := sessionInv_default
  live s e he := by simp [show (default : Session).book s = SortedMap.empty from rfl] at he
  nonempty s e he := by simp [show (default : Session).book s = SortedMap.empty from rfl] at he
  uncrossed s e he := by simp [show (default : Session).book s = SortedMap.empty from rfl] at he

section Line

variable {lines : List OrderLine} {st : Session}

/-- Facts about the state the new order is matched in. -/
theorem NormalInv.construct_live (h : NormalInv lines st) (o : OrderLine) :
    LiveBooks (st.construct o) := by
  intro s e he
  refine (h.live s e he).congr fun p hp => SessionInv.construct_of_ne o ?_
  rintro rfl
  exact absurd (h.used s _ (List.mem_flatMap.mpr ⟨e, he, hp⟩)) (lt_irrefl _)

/-- It is enough to compare the books one way round. -/
theorem uncrossed_of (s : Side)
    (h : ∀ e ∈ (w.book s).entries, ∀ e' ∈ (w.book s.opposite).entries, cmp s e'.1 e.1 = true) :
    Uncrossed w := by
  intro s' e he e' he'
  by_cases hs : s' = s
  · subst hs
    exact h e he e' he'
  · obtain rfl : s' = s.opposite := by cases s <;> cases s' <;> simp_all [Side.opposite]
    rw [Side.opposite_opposite] at he'
    rw [cmp_opposite]
    exact h e' he' e he

theorem MatchSteps.keys_subset (h : MatchSteps env s pIncoming w w') {e : Price × OrderGroup}
    (he : e ∈ (w'.book s).entries) : ∃ e' ∈ (w.book s).entries, e'.1 = e.1 := by
  have hkeys : ((w'.book s).entries.map Prod.fst).Sublist ((w.book s).entries.map Prod.fst) := by
    clear he
    induction h with
    | refl => exact .refl _
    | tail _ hstep ih => exact hstep.keys_sublist.trans ih
  exact List.mem_map.mp (hkeys.subset (List.mem_map_of_mem he))

/-- Matching keeps the books uncrossed. -/
theorem Uncrossed.matchSteps (hU : Uncrossed w) (h : MatchSteps env s pIncoming w w') :
    Uncrossed w' := by
  refine uncrossed_of s fun e he e' he' => ?_
  obtain ⟨x, hx, hkey⟩ := MatchSteps.keys_subset h he
  rw [(MatchSteps.frame h).2.2.2 _ s.opposite_ne] at he'
  rw [← hkey]
  exact hU s x hx e' he'

/-- **An order that is not filled leaves no level it crosses**: either nothing is
left on the other side, or its best level is too expensive. -/
theorem MatchRun.uncrossed {r : Bool × World} (h : MatchRun env s pIncoming w r)
    (hfull : r.1 = false) (hL : LiveBooks r.2)
    (hne : ∀ e ∈ (r.2.book s).entries, e.2.mLeavesQty ≠ 0) :
    ∀ e ∈ (r.2.book s).entries, cmp s (r.2.mem pIncoming).price e.1 = true := by
  have horders : ∀ e ∈ (r.2.book s).entries, e.2.mOrders ≠ [] := by
    intro e he hnil
    refine hne e he ?_
    rw [(hL s e he).1, hnil, leavesSum_nil]
  have hout := h.outcome
  rw [hfull] at hout
  generalize hb : (false : Bool) = b at hout
  cases hout with
  | filled _ _ => cases hb
  | noBook hempty hsame =>
      rw [hsame, hempty]
      simp
  | @stopped pre key g post hsplit hdead hprice _ =>
      have hpre : pre = [] := by
        cases pre with
        | nil => rfl
        | cons x pre =>
            exact absurd (hdead x List.mem_cons_self) (horders x (by rw [hsplit]; simp))
      subst hpre
      intro e he
      rw [hsplit, List.nil_append] at he
      rcases List.mem_cons.mp he with rfl | he
      · exact hprice
      · exact ComparatorLaws.trans hprice (hsplit.after he)
  | exhausted _ _ hdead _ =>
      intro e he
      exact absurd (hdead e he) (horders e he)

theorem mem_addOrder_key {price : Price} {p : ℕ} {e : Price × OrderGroup}
    (he : e ∈ ((w.addOrder s price p).book s).entries) :
    e.1 = price ∨ ∃ e' ∈ (w.book s).entries, e'.1 = e.1 := by
  rcases mem_addOrder he with he | ⟨g, rfl, -⟩
  · exact .inr ⟨e, he, rfl⟩
  · exact .inl rfl

/-- What holds after the matching of a new order. -/
theorem NormalInv.matched (h : NormalInv lines st) (o : OrderLine) {full : Bool} {w : World}
    (hmatch : matchOrder env o.side.opposite st.index (st.construct o) = (full, w)) :
    MatchRun env o.side.opposite st.index (st.construct o) (full, w) ∧ LiveBooks w ∧
      (∀ s, ∀ e ∈ (w.book s).entries, e.2.mLeavesQty ≠ 0) ∧ Uncrossed w := by
  have hrun := normalMatch_run env h.toSessionInv o
  have hU : Uncrossed (st.construct o) := h.uncrossed
  rw [hmatch] at hrun
  refine ⟨hrun, MatchSteps.liveBooks hrun.steps (h.construct_bookInv o)
    (by simp [h.construct_self o]) (h.construct_free o) (h.construct_live o), fun s => ?_,
    hU.matchSteps hrun.steps⟩
  by_cases hs : s = o.side.opposite
  · subst hs
    exact hrun.notEmptied (h.nonempty _)
  · rw [(MatchSteps.frame hrun.steps).2.2.2 s hs]
    exact h.nonempty s

/-- **One line keeps the invariant.** -/
theorem normalLine_inv (h : NormalInv lines st) (o : OrderLine) :
    NormalInv (lines ++ [o]) (normalLine env st o) := by
  have hS := (normalLine_run env h.toSessionInv o).2
  obtain ⟨w, index, hcase, heq⟩ := normalLine_cases env h.toSessionInv o
  rw [heq] at hS ⊢
  cases hcase with
  | zero hqty => exact ⟨hS, h.construct_live o, h.nonempty, h.uncrossed⟩
  | filled hqty hmatch =>
      obtain ⟨-, hL, hne, hU⟩ := h.matched o hmatch
      exact ⟨hS, hL, hne, hU⟩
  | @rests w hqty hmatch =>
      obtain ⟨hrun, hL, hne, hU⟩ := h.matched o hmatch
      have hleaves : (w.mem st.index).leaves ≠ 0 := by
        intro h0
        have hfull := hrun.unfilled h0 (h.construct_leaves_ne o hqty)
        exact absurd hfull Bool.false_ne_true
      have hcross := hrun.uncrossed rfl hL (hne _)
      refine ⟨hS, hL.addOrder hleaves, fun s e he => ?_, ?_⟩
      · by_cases hs : s = o.side
        · subst hs
          rcases mem_addOrder he with he | ⟨g, rfl, -⟩
          · exact hne _ e he
          · change g.mLeavesQty + (w.mem st.index).leaves ≠ 0
            omega
        · change e ∈ ((w.addOrder o.side _ _).book s).entries at he
          rw [addOrder_book_of_ne hs] at he
          exact hne s e he
      · refine uncrossed_of o.side fun e he e' he' => ?_
        change e' ∈ ((w.addOrder o.side _ _).book o.side.opposite).entries at he'
        rw [addOrder_book_of_ne o.side.opposite_ne] at he'
        rcases mem_addOrder_key he with hkey | ⟨x, hx, hkey⟩
        · rw [hkey, ← cmp_opposite]
          exact hcross e' he'
        · rw [← hkey]
          exact hU o.side x hx e' he'

theorem normal_inv (env : Platform) (lines : List OrderLine) :
    NormalInv lines (processNormalOrders env lines) := by
  induction lines using List.reverseRecOn with
  | nil => exact normalInv_default
  | append_singleton lines o ih =>
      rw [processNormalOrders, List.foldl_append]
      exact normalLine_inv ih o

end Line

/-! ### The order-book invariant -/

/-- **A well-formed pair of books.** -/
structure WellFormedBooks (st : Session) : Prop where
  /-- the best buy price is below the best sell price -/
  uncrossed : ∀ b ∈ (st.book .BUY).entries.head?, ∀ a ∈ (st.book .SELL).entries.head?,
    b.1 < a.1
  /-- every level has orders, and its running total is what is left on them -/
  level : ∀ s, ∀ e ∈ (st.book s).entries,
    e.2.mOrders ≠ [] ∧ e.2.mLeavesQty = leavesSum st.mem e.2.mOrders
  /-- every resting order has quantity left and is on its own side at its own price -/
  order : ∀ s, ∀ e ∈ (st.book s).entries, ∀ p ∈ e.2.mOrders,
    0 < (st.mem p).leaves ∧ (st.mem p).price = e.1 ∧ (st.mem p).side = s
  /-- no order rests twice -/
  once : (ptrs (st.book .BUY) ++ ptrs (st.book .SELL)).Nodup
  /-- the slot of the next line is free -/
  slot : ∀ s, st.index ∉ ptrs (st.book s)

theorem BookInv.ptrs_append_nodup (h : BookInv w) :
    (ptrs (w.book .BUY) ++ ptrs (w.book .SELL)).Nodup := by
  rw [List.nodup_append]
  refine ⟨h.nodup _, h.nodup _, ?_⟩
  rintro p hb _ hs rfl
  have := (h.side_of_mem_ptrs hb).symm.trans (h.side_of_mem_ptrs hs)
  cases this

/-- **The order-book invariant of the normal rule**, after every list of lines: the books do not
cross, every level has the total of its orders, and none of them is empty. -/
theorem normal_books_wellFormed (env : Platform) (lines : List OrderLine) :
    WellFormedBooks (processNormalOrders env lines) := by
  have h := normal_inv env lines
  exact {
    uncrossed := fun b hb a ha => by
      have := h.uncrossed .SELL a (List.mem_of_mem_head? ha) b (List.mem_of_mem_head? hb)
      simpa [cmp, cmpSell] using this
    level := fun s e he => by
      refine ⟨fun hnil => h.nonempty s e he ?_, (h.live s e he).1⟩
      rw [(h.live s e he).1, hnil, leavesSum_nil]
    order := fun s e he p hp =>
      ⟨Nat.pos_of_ne_zero ((h.live s e he).2 p hp), (h.own s e he p hp).2, (h.own s e he p hp).1⟩
    once := h.ptrs_append_nodup
    slot := fun s hp => absurd (h.used s _ hp) (lt_irrefl _) }

end LinuxProgram.PrestoLabs
