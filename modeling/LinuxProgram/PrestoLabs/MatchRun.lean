import LinuxProgram.PrestoLabs.MatchSteps

/-!
# `Book::match` as a run of steps

`matchOrder_run`: a call of `matchOrder` for an order that is not in the book is
a `MatchSteps` run, and ends in one of the ways listed by `MatchOutcome`.  The
induction follows the two loops: `matchGroupLoop_run` on the orders left in a
level, `matchLevels_run` on the levels left in the book.  The invariant of the
outer loop is that every level before the iterator has no order left — such
levels exist only in the auction, where the stale totals keep them in the map.
-/

namespace LinuxProgram.PrestoLabs

open Lib

variable {env : Platform} {s : Side} {pIncoming : ℕ}

/-! ### One level

The inner loop takes the first order of the level until the level is empty or the incoming order
is.  The levels before this one have no order left, and those behind it are not touched, so the
book is written as a split around the level throughout. -/

section Level

variable {pre post : List (Price × OrderGroup)} {key : Price}

/-- One pass of the inner loop: a fill on the first order, and a return as soon as
the incoming order is empty. -/
theorem matchGroupLoop_cons {w : World} {g : OrderGroup} {r : ℕ} {os : List ℕ}
    (h : (w.book s).Split pre key g post) (hg : g.mOrders = r :: os) (hne : r ≠ pIncoming)
    (n : ℕ) :
    matchGroupLoop s pre.length pIncoming (n + 1) 0 w =
      if ((fillStep s pre.length r pIncoming w).mem pIncoming).leaves = 0 then
        (true, fillStep s pre.length r pIncoming w)
      else matchGroupLoop s pre.length pIncoming n 0 (fillStep s pre.length r pIncoming w) := by
  have hr : ((w.group? s pre.length).bind fun g => g.mOrders[0]?) = some r := by
    simp [w.group?_of_split s h, hg]
  rw [matchGroupLoop, hr]
  simp only [← OrderEntry.empty_iff]
  by_cases he : ((fillStep s pre.length r pIncoming w).mem pIncoming).empty = true
  · rw [if_pos he]
    exact if_pos he
  · rw [if_neg he]
    refine (if_neg he).trans ?_
    -- the incoming order is not empty, so the trade emptied the resting one
    have hz : (tradedMem w r pIncoming r).empty = true := by
      rw [OrderEntry.empty_iff]
      rw [fillStep_mem hne, OrderEntry.empty_iff] at he
      exact (tradedMem_empty hne).resolve_right he
    have hmem : ((matchEntry s r pIncoming w).2.modifyGroup s pre.length fun g =>
        { g with mLeavesQty := g.mLeavesQty - (matchEntry s r pIncoming w).1.toNat }).mem r
        = tradedMem w r pIncoming r := by
      rw [World.modifyGroup, World.setBook_mem, matchEntry_mem s hne]
    rw [if_pos (by rw [hmem]; exact hz)]
    rfl

/-- What the inner loop does to a sorted level. -/
structure GroupRun (env : Platform) (s : Side) (pIncoming : ℕ)
    (pre : List (Price × OrderGroup)) (key : Price) (post : List (Price × OrderGroup))
    (w : World) (r : Bool × World) : Prop where
  steps : MatchSteps env s pIncoming w r.2
  split : ∃ g, (r.2.book s).Split pre key g post ∧ (r.1 = false → g.mOrders = [])
  filled : r.1 = true → (r.2.mem pIncoming).leaves = 0
  unfilled : r.1 = false → (w.mem pIncoming).leaves ≠ 0 → (r.2.mem pIncoming).leaves ≠ 0
  endReads : r.2.endReads = w.endReads

variable (env) in
theorem matchGroupLoop_run (hdead : ∀ e ∈ pre, e.2.mOrders = []) :
    ∀ (n : ℕ) {w : World} {g : OrderGroup}, (w.book s).Split pre key g post →
      g.mOrders.length = n → g.mOrders.Nodup → pIncoming ∉ g.mOrders →
      (g.mOrders.Pairwise fun a b => (w.mem b).getKey env.normalRuleApply
        ≤ (w.mem a).getKey env.normalRuleApply) →
      cmp s (w.mem pIncoming).price key = false →
      GroupRun env s pIncoming pre key post w
        (matchGroupLoop s pre.length pIncoming n 0 w) := by
  intro n
  induction n with
  | zero =>
      intro w g h hlen _ _ _ _
      exact {
        steps := Relation.ReflTransGen.refl
        split := ⟨g, h, fun _ => List.length_eq_zero_iff.mp hlen⟩
        filled := by simp [matchGroupLoop]
        unfilled := fun _ h => h
        endReads := rfl }
  | succ n ih =>
      intro w g h hlen hnd hnotin hsorted hprice
      obtain ⟨r, os, hg⟩ : ∃ r os, g.mOrders = r :: os :=
        List.exists_cons_of_length_eq_add_one hlen
      rw [hg] at hnd hnotin hsorted hlen
      rw [List.nodup_cons] at hnd
      rw [List.pairwise_cons] at hsorted
      have hne : r ≠ pIncoming := fun he => hnotin (he ▸ List.mem_cons_self)
      have hstep : MatchStep env s pIncoming w (fillStep s pre.length r pIncoming w) :=
        .fill h hg hne hdead hsorted.1 hprice
      have hsplit := fillStep_split (s := s) h hg hne
      rw [matchGroupLoop_cons h hg hne]
      by_cases he : ((fillStep s pre.length r pIncoming w).mem pIncoming).leaves = 0
      · rw [if_pos he]
        exact {
          steps := .single hstep
          split := ⟨_, hsplit, by simp⟩
          filled := fun _ => he
          unfilled := by simp
          endReads := fillStep_endReads hne _ }
      · rw [if_neg he]
        have hz : (tradedMem w r pIncoming r).leaves = 0 := by
          rw [fillStep_mem hne] at he
          exact (tradedMem_empty hne).resolve_right he
        rw [if_pos hz] at hsplit
        have hmem : ∀ p ∈ os, (fillStep s pre.length r pIncoming w).mem p = w.mem p := by
          intro p hp
          rw [fillStep_mem hne]
          exact tradedMem_of_ne (fun e => hnd.1 (e ▸ hp))
            (fun e => hnotin (e ▸ List.mem_cons_of_mem _ hp))
        have hrun := ih hsplit (by simpa using hlen) hnd.2
          (fun hp => hnotin (List.mem_cons_of_mem _ hp))
          (hsorted.2.imp_of_mem fun ha hb hab => by rwa [hmem _ ha, hmem _ hb])
          (by rw [(hstep.toOrderLine pIncoming).1]; exact hprice)
        exact {
          steps := .head hstep hrun.steps
          split := hrun.split
          filled := hrun.filled
          unfilled := fun hb _ => hrun.unfilled hb he
          endReads := hrun.endReads.trans (fillStep_endReads hne _) }

variable (env) in
/-- `OrderGroup::match` on a level whose price the incoming order accepts. -/
theorem matchGroup_run (hdead : ∀ e ∈ pre, e.2.mOrders = []) {w : World} {g : OrderGroup}
    (h : (w.book s).Split pre key g post) (hnd : g.mOrders.Nodup)
    (hnotin : pIncoming ∉ g.mOrders) (hprice : cmp s (w.mem pIncoming).price key = false) :
    GroupRun env s pIncoming pre key post w (matchGroup env s pre.length pIncoming w) := by
  have hsplit := sortGroup_split env h
  have hperm := sortOrders_perm env w.mem g.mOrders
  have hlen : (((sortGroup env s pre.length w).group? s pre.length).map fun g =>
      g.mOrders.length).getD 0 = (sortOrders env w.mem g.mOrders).length := by
    simp [World.group?_of_split _ s hsplit]
  have hrun := matchGroupLoop_run env hdead _ hsplit hlen.symm
    (hperm.nodup_iff.mpr hnd) (fun hp => hnotin (hperm.subset hp))
    (sortOrders_sorted w.mem g.mOrders) hprice
  exact {
    steps := .head (.sort h) hrun.steps
    split := hrun.split
    filled := hrun.filled
    unfilled := hrun.unfilled
    endReads := hrun.endReads }

end Level

/-! ### One book

The outer loop is a `do`/`while` whose test comes after the iterator has moved on, and reads the
key behind it even where that is `end()`.  `LoopHead` is its invariant and `LoopPass` what one
pass does; `matchLevels_rule` is the induction, which later files use for what they count in a
run. -/

/-- **How a call of `matchOrder` ends**, `b` being the value it returns. -/
inductive MatchOutcome (env : Platform) (s : Side) (pIncoming : ℕ) (w w' : World) : Bool → Prop
  /-- the order was filled -/
  | filled (hleaves : (w'.mem pIncoming).leaves = 0) (hreads : w'.endReads = w.endReads) :
      MatchOutcome env s pIncoming w w' true
  /-- the book is empty -/
  | noBook (hempty : (w.book s).entries = []) (hsame : w' = w) :
      MatchOutcome env s pIncoming w w' false
  /-- the next level is too expensive, and the levels before it have no order left -/
  | stopped {pre key g post} (hsplit : (w'.book s).Split pre key g post)
      (hdead : ∀ e ∈ pre, e.2.mOrders = [])
      (hprice : cmp s (w'.mem pIncoming).price key = true)
      (hreads : w'.endReads = w.endReads) :
      MatchOutcome env s pIncoming w w' false
  /-- every level was passed: the key of `end()` is read -/
  | exhausted (hcross : ∀ e ∈ (w.book s).entries, cmp s (w.mem pIncoming).price e.1 = false)
      (hne : (w.book s).entries ≠ [])
      (hdead : ∀ e ∈ (w'.book s).entries, e.2.mOrders = [])
      (hreads : w'.endReads = w.endReads + 1) :
      MatchOutcome env s pIncoming w w' (!env.endKeyCmp w.endReads)

/-- **A call of `matchOrder`**, as a run of steps. -/
structure MatchRun (env : Platform) (s : Side) (pIncoming : ℕ) (w : World) (r : Bool × World) :
    Prop where
  steps : MatchSteps env s pIncoming w r.2
  outcome : MatchOutcome env s pIncoming w r.2 r.1
  /-- only a filled order is left without quantity -/
  unfilled : (r.2.mem pIncoming).leaves = 0 → (w.mem pIncoming).leaves ≠ 0 → r.1 = true
  /-- a level is left in the map with its running total at zero only if it came so -/
  notEmptied : (∀ e ∈ (w.book s).entries, e.2.mLeavesQty ≠ 0) →
    ∀ e ∈ (r.2.book s).entries, e.2.mLeavesQty ≠ 0

/-- One pass of the outer loop up to its test: whether the order was filled, the
new iterator, and the new state. -/
def levelPass (env : Platform) (s : Side) (pIncoming i : ℕ) (w : World) : Bool × ℕ × World :=
  let matched := matchGroup env s i pIncoming w
  let emptied := ((matched.2.group? s i).map OrderGroup.empty).getD false
  (matched.1, if emptied then i else i + 1, if emptied then matched.2.eraseGroup s i else matched.2)

theorem matchLevels_succ (n i : ℕ) (w : World) :
    matchLevels env s pIncoming (n + 1) i w =
      if (levelPass env s pIncoming i w).1 then (true, (levelPass env s pIncoming i w).2.2)
      else match ((levelPass env s pIncoming i w).2.2.book s).entries[
          (levelPass env s pIncoming i w).2.1]? with
        | some (key, _) =>
            if cmp s ((levelPass env s pIncoming i w).2.2.mem pIncoming).getPrice key then
              (false, (levelPass env s pIncoming i w).2.2)
            else matchLevels env s pIncoming n (levelPass env s pIncoming i w).2.1
              (levelPass env s pIncoming i w).2.2
        | none =>
            if env.endKeyCmp (levelPass env s pIncoming i w).2.2.endReads then
              (false, { (levelPass env s pIncoming i w).2.2 with
                endReads := (levelPass env s pIncoming i w).2.2.endReads + 1 })
            else (true, { (levelPass env s pIncoming i w).2.2 with
                endReads := (levelPass env s pIncoming i w).2.2.endReads + 1 }) := rfl

/-- What one pass does to the level `(key, g)` between `pre` and `post`: it leaves
`pre'` before the new iterator. -/
structure LevelRun (env : Platform) (s : Side) (pIncoming : ℕ)
    (key : Price) (pre pre' post : List (Price × OrderGroup))
    (w : World) (r : Bool × ℕ × World) : Prop where
  steps : MatchSteps env s pIncoming w r.2.2
  entries : (r.2.2.book s).entries = pre' ++ post
  iter : r.2.1 = pre'.length
  pre'_cases : pre' = pre ∨ ∃ g, g.mLeavesQty ≠ 0 ∧ pre' = pre ++ [(key, g)]
  dead : r.1 = false → ∀ e ∈ pre', e.2.mOrders = []
  filled : r.1 = true → (r.2.2.mem pIncoming).leaves = 0
  unfilled : r.1 = false → (w.mem pIncoming).leaves ≠ 0 → (r.2.2.mem pIncoming).leaves ≠ 0
  endReads : r.2.2.endReads = w.endReads

variable (env) in
theorem levelPass_run {pre post : List (Price × OrderGroup)} {key : Price} {g : OrderGroup}
    {w : World} (hdead : ∀ e ∈ pre, e.2.mOrders = []) (h : (w.book s).Split pre key g post)
    (hnd : (ptrs (w.book s)).Nodup) (hnotin : pIncoming ∉ ptrs (w.book s))
    (hprice : cmp s (w.mem pIncoming).price key = false) :
    ∃ pre', LevelRun env s pIncoming key pre pre' post w
      (levelPass env s pIncoming pre.length w) := by
  rw [ptrs_of_split h] at hnd hnotin
  have hrun := matchGroup_run env hdead h
    ((List.nodup_append.mp (List.nodup_append.mp hnd).2.1).1)
    (fun hp => hnotin (by simp [hp])) hprice
  obtain ⟨g', hsplit, hg'⟩ := hrun.split
  have hgroup := World.group?_of_split _ s hsplit
  by_cases hz : g'.mLeavesQty = 0
  · have hpass : levelPass env s pIncoming pre.length w
        = ((matchGroup env s pre.length pIncoming w).1, pre.length,
          (matchGroup env s pre.length pIncoming w).2.eraseGroup s pre.length) := by
      simp [levelPass, hgroup, OrderGroup.empty, hz]
    rw [hpass]
    exact ⟨pre, {
      steps := hrun.steps.tail (.drop hsplit hz)
      entries := eraseGroup_entries hsplit
      iter := rfl
      pre'_cases := .inl rfl
      dead := fun _ => hdead
      filled := hrun.filled
      unfilled := hrun.unfilled
      endReads := hrun.endReads }⟩
  · have hpass : levelPass env s pIncoming pre.length w
        = ((matchGroup env s pre.length pIncoming w).1, pre.length + 1,
          (matchGroup env s pre.length pIncoming w).2) := by
      simp [levelPass, hgroup, OrderGroup.empty, hz]
    rw [hpass]
    exact ⟨pre ++ [(key, g')], {
      steps := hrun.steps
      entries := by simpa using show (_ : Levels s).entries = _ from hsplit
      iter := by simp
      pre'_cases := .inr ⟨g', hz, rfl⟩
      dead := fun hb e he => by
        rcases List.mem_append.mp he with he | he
        · exact hdead e he
        · rw [List.mem_singleton.mp he]
          exact hg' hb
      filled := hrun.filled
      unfilled := hrun.unfilled
      endReads := hrun.endReads }⟩

/-- Facts about a state that a run of steps carries along. -/
theorem MatchSteps.frame {w w' : World} (h : MatchSteps env s pIncoming w w') :
    (ptrs (w'.book s) ⊆ ptrs (w.book s)) ∧
      ((ptrs (w.book s)).Nodup → (ptrs (w'.book s)).Nodup) ∧
      (∀ p, (w'.mem p).toOrderLine = (w.mem p).toOrderLine ∧ (w'.mem p).line = (w.mem p).line) ∧
      (∀ s' ≠ s, w'.book s' = w.book s') := by
  induction h with
  | refl => exact ⟨fun _ h => h, id, fun _ => ⟨rfl, rfl⟩, fun _ _ => rfl⟩
  | tail _ hstep ih =>
      obtain ⟨hsub, hnd, hline, hbook⟩ := ih
      exact ⟨fun _ hp => hsub (hstep.ptrs_subset hp), fun h => hstep.ptrs_nodup (hnd h),
        fun p => ⟨(hstep.toOrderLine p).1.trans (hline p).1,
          (hstep.toOrderLine p).2.trans (hline p).2⟩,
        fun s' hs => (hstep.book_of_ne hs).trans (hbook s' hs)⟩

theorem MatchStep.mem_of_notMem {w w' : World} (h : MatchStep env s pIncoming w w') {p : ℕ}
    (hne : p ≠ pIncoming) (hp : p ∉ ptrs (w.book s)) : w'.mem p = w.mem p := by
  cases h with
  | sort h => rfl
  | fill h hg hfill hdead hkey hprice =>
      rw [fillStep_mem hfill]
      refine tradedMem_of_ne ?_ hne
      rintro rfl
      exact hp (List.mem_flatMap.mpr ⟨_, h.mem, by simp [hg]⟩)
  | drop h => rfl
  | readEnd => rfl

/-- A run changes the orders of its book and the incoming order, no others. -/
theorem MatchSteps.mem_of_notMem {w w' : World} (h : MatchSteps env s pIncoming w w') {p : ℕ}
    (hne : p ≠ pIncoming) (hp : p ∉ ptrs (w.book s)) : w'.mem p = w.mem p := by
  induction h with
  | refl => rfl
  | tail hsteps hstep ih =>
      exact (hstep.mem_of_notMem hne fun hp' => hp ((MatchSteps.frame hsteps).1 hp')).trans ih

/-- A run does not change the side of an order. -/
theorem MatchSteps.side_eq {w w' : World} (h : MatchSteps env s pIncoming w w') (p : ℕ) :
    (w'.mem p).side = (w.mem p).side :=
  congrArg OrderLine.side (h.frame.2.2.1 p).1

/-- A run does not change the price of an order. -/
theorem MatchSteps.price_eq {w w' : World} (h : MatchSteps env s pIncoming w w') (p : ℕ) :
    (w'.mem p).price = (w.mem p).price :=
  congrArg OrderLine.price (h.frame.2.2.1 p).1

/-- A run does not bring an order into a book. -/
theorem MatchSteps.ptrs_subset {w w' : World} (h : MatchSteps env s pIncoming w w') (s' : Side) :
    ptrs (w'.book s') ⊆ ptrs (w.book s') := by
  by_cases hs : s' = s
  · subst hs
    exact h.frame.1
  · rw [h.frame.2.2.2 s' hs]
    exact fun _ hp => hp

/-- **The head of the `do`/`while` loop**: `pre` are the levels in front of
`BestOrderGroup`, which have no order left, and `rest` the others. -/
structure LoopHead (s : Side) (pIncoming : ℕ) (pre rest : List (Price × OrderGroup))
    (w : World) : Prop where
  levels : (w.book s).entries = pre ++ rest
  passed : ∀ e ∈ pre, e.2.mOrders = []
  crossed : ∀ e ∈ pre, cmp s (w.mem pIncoming).price e.1 = false
  accepts : ∀ e ∈ rest.head?, cmp s (w.mem pIncoming).price e.1 = false
  nodup : (ptrs (w.book s)).Nodup
  notin : pIncoming ∉ ptrs (w.book s)

/-- **One pass of the loop** on the level `(key, g)`, from the head of the loop to its
test. -/
structure LoopPass (env : Platform) (s : Side) (pIncoming : ℕ)
    (pre : List (Price × OrderGroup)) (key : Price) (g : OrderGroup)
    (post : List (Price × OrderGroup)) (w : World) (filled : Bool)
    (pre' : List (Price × OrderGroup)) (w' : World) : Prop where
  head : LoopHead s pIncoming pre ((key, g) :: post) w
  run : LevelRun env s pIncoming key pre pre' post w (filled, pre'.length, w')
  eq : levelPass env s pIncoming pre.length w = (filled, pre'.length, w')

variable (env) in
theorem LoopHead.pass {pre post : List (Price × OrderGroup)} {key : Price} {g : OrderGroup}
    {w : World} (h : LoopHead s pIncoming pre ((key, g) :: post) w) :
    ∃ filled pre' w', LoopPass env s pIncoming pre key g post w filled pre' w' := by
  obtain ⟨pre', hrun⟩ := levelPass_run env h.passed h.levels h.nodup h.notin
    (h.accepts _ rfl)
  have hiter := hrun.iter
  generalize hr : levelPass env s pIncoming pre.length w = r at hrun hiter
  obtain ⟨filled, i, w'⟩ := r
  obtain rfl : i = pre'.length := hiter
  exact ⟨filled, pre', w', h, hrun, hr⟩

section Pass

variable {w w' : World} {key : Price} {g : OrderGroup} {pre pre' post : List (Price × OrderGroup)}
  {filled : Bool}

namespace LoopPass

/-- A pass goes past its own level at most. -/
theorem forall_pre' (h : LoopPass env s pIncoming pre key g post w filled pre' w')
    (P : Price × OrderGroup → Prop) (hpre : ∀ e ∈ pre, P e)
    (hkey : ∀ g', g'.mLeavesQty ≠ 0 → P (key, g')) : ∀ e ∈ pre', P e := by
  rcases h.run.pre'_cases with rfl | ⟨g', hz, rfl⟩
  · exact hpre
  · rw [List.forall_mem_append, List.forall_mem_singleton]
    exact ⟨hpre, hkey g' hz⟩

theorem price_eq (h : LoopPass env s pIncoming pre key g post w filled pre' w') (p : ℕ) :
    (w'.mem p).price = (w.mem p).price :=
  MatchSteps.price_eq h.run.steps p

theorem notin (h : LoopPass env s pIncoming pre key g post w filled pre' w') :
    pIncoming ∉ g.mOrders := fun hp =>
  h.head.notin (List.mem_flatMap.mpr ⟨(key, g), by rw [h.head.levels]; simp, hp⟩)

/-- The incoming order accepts every level up to this one. -/
theorem crossed (h : LoopPass env s pIncoming pre key g post w filled pre' w') :
    ∀ e ∈ pre ++ [(key, g)], cmp s (w.mem pIncoming).price e.1 = false := by
  rw [List.forall_mem_append, List.forall_mem_singleton]
  exact ⟨h.head.crossed, h.head.accepts _ rfl⟩

theorem notEmptied (h : LoopPass env s pIncoming pre key g post w filled pre' w')
    (hall : ∀ e ∈ (w.book s).entries, e.2.mLeavesQty ≠ 0) :
    ∀ e ∈ (w'.book s).entries, e.2.mLeavesQty ≠ 0 := by
  have hentries : (w'.book s).entries = pre' ++ post := h.run.entries
  rw [h.head.levels, List.forall_mem_append, List.forall_mem_cons] at hall
  rw [hentries, List.forall_mem_append]
  exact ⟨h.forall_pre' (fun e => e.2.mLeavesQty ≠ 0) hall.1 fun _ hz => hz, hall.2.2⟩

/-- The loop goes on: its invariant holds again. -/
theorem next (h : LoopPass env s pIncoming pre key g post w false pre' w')
    (haccepts : ∀ e ∈ post.head?, cmp s (w'.mem pIncoming).price e.1 = false) :
    LoopHead s pIncoming pre' post w' where
  levels := h.run.entries
  passed := h.run.dead rfl
  crossed := by
    rw [h.price_eq]
    exact h.forall_pre' (fun e => cmp s _ e.1 = false) h.head.crossed
      fun _ _ => h.head.accepts (key, g) rfl
  accepts := haccepts
  nodup := (MatchSteps.frame h.run.steps).2.1 h.head.nodup
  notin hp := h.head.notin ((MatchSteps.frame h.run.steps).1 hp)

/-- What the loop does behind a pass. -/
theorem matchLevels_eq (h : LoopPass env s pIncoming pre key g post w filled pre' w') (n : ℕ) :
    matchLevels env s pIncoming (n + 1) pre.length w =
      if filled then (true, w')
      else match post with
        | [] => (!env.endKeyCmp w'.endReads, { w' with endReads := w'.endReads + 1 })
        | (key, _) :: _ =>
            if cmp s (w'.mem pIncoming).price key then (false, w')
            else matchLevels env s pIncoming n pre'.length w' := by
  have hentries : (w'.book s).entries = pre' ++ post := h.run.entries
  rw [matchLevels_succ, h.eq]
  dsimp only
  rw [hentries]
  cases post with
  | nil =>
      rw [List.append_nil, List.getElem?_eq_none le_rfl]
      dsimp only
      cases env.endKeyCmp w'.endReads <;> rfl
  | cons e post =>
      have hget : (pre' ++ e :: post)[pre'.length]? = some e := by simp
      rw [hget]
      rfl

end LoopPass

variable (env s pIncoming) in
/-- **The induction over the `do`/`while` loop.**  `Q rest w r` is what is to be shown of
the loop that starts in `w` in front of the levels `rest` and ends in `r`. -/
theorem matchLevels_rule (Q : List (Price × OrderGroup) → World → Bool × World → Prop)
    (hfilled : ∀ {pre key g post w pre' w'},
      LoopPass env s pIncoming pre key g post w true pre' w' → Q ((key, g) :: post) w (true, w'))
    (hend : ∀ {pre key g w pre' w'}, LoopPass env s pIncoming pre key g [] w false pre' w' →
      Q [(key, g)] w (!env.endKeyCmp w'.endReads, { w' with endReads := w'.endReads + 1 }))
    (hstop : ∀ {pre key g e post w pre' w'},
      LoopPass env s pIncoming pre key g (e :: post) w false pre' w' →
      cmp s (w'.mem pIncoming).price e.1 = true → Q ((key, g) :: e :: post) w (false, w'))
    (hnext : ∀ {pre key g e post w pre' w' r},
      LoopPass env s pIncoming pre key g (e :: post) w false pre' w' →
      LoopHead s pIncoming pre' (e :: post) w' → Q (e :: post) w' r →
      Q ((key, g) :: e :: post) w r) :
    ∀ (rest : List (Price × OrderGroup)) {w : World} {pre : List (Price × OrderGroup)},
      rest ≠ [] → LoopHead s pIncoming pre rest w →
      Q rest w (matchLevels env s pIncoming rest.length pre.length w) := by
  intro rest
  induction rest with
  | nil => exact fun hne => absurd rfl hne
  | cons x post ih =>
      intro w pre _ h
      obtain ⟨filled, pre', w', hpass⟩ := h.pass env
      rw [List.length_cons, hpass.matchLevels_eq]
      cases filled with
      | true => exact hfilled hpass
      | false =>
          rw [if_neg Bool.false_ne_true]
          cases post with
          | nil => exact hend hpass
          | cons e post =>
              dsimp only
              by_cases hcmp : cmp s (w'.mem pIncoming).price e.1 = true
              · rw [if_pos hcmp]
                exact hstop hpass hcmp
              · rw [if_neg hcmp]
                have hhead := hpass.next (by simpa using hcmp)
                exact hnext hpass hhead (ih (List.cons_ne_nil _ _) hhead)

/-- A pass after which the iterator is `end()`: the key there is read. -/
theorem LoopPass.atEnd (h : LoopPass env s pIncoming pre key g [] w false pre' w') :
    MatchRun env s pIncoming w
      (!env.endKeyCmp w'.endReads, { w' with endReads := w'.endReads + 1 }) where
  steps := .tail h.run.steps .readEnd
  outcome := by
    have hentries : (w'.book s).entries = pre' ++ [] := h.run.entries
    have hreads : w'.endReads = w.endReads := h.run.endReads
    have hlevels := h.head.levels
    have hout : MatchOutcome env s pIncoming w { w' with endReads := w'.endReads + 1 }
        (!env.endKeyCmp w.endReads) :=
      .exhausted (by rw [hlevels]; exact h.crossed) (by simp [hlevels])
        (by rw [hentries, List.append_nil]; exact h.run.dead rfl) (congrArg (· + 1) hreads)
    rwa [← hreads] at hout
  unfilled h0 hw := absurd h0 (h.run.unfilled rfl hw)
  notEmptied := h.notEmptied

/-- A pass, and what the passes after it do. -/
theorem LoopPass.trans {e : Price × OrderGroup} {r : Bool × World}
    (h : LoopPass env s pIncoming pre key g (e :: post) w false pre' w')
    (h' : MatchRun env s pIncoming w' r) : MatchRun env s pIncoming w r where
  steps := Relation.ReflTransGen.trans h.run.steps h'.steps
  outcome := by
    have hentries : (w'.book s).entries = pre' ++ e :: post := h.run.entries
    have hreads : w'.endReads = w.endReads := h.run.endReads
    generalize hb : r.1 = b
    have hout := h'.outcome
    rw [hb] at hout
    cases hout with
    | filled hl hr => exact .filled hl (hr.trans hreads)
    | noBook he _ => rw [hentries] at he; simp at he
    | stopped hsp hd hc hr => exact .stopped hsp hd hc (hr.trans hreads)
    | exhausted hc hne hd hr =>
        rw [hreads] at hr ⊢
        rw [hentries, h.price_eq, List.forall_mem_append] at hc
        have hlevels := h.head.levels
        refine .exhausted ?_ (by simp [hlevels]) hd hr
        rw [hlevels, List.append_cons, List.forall_mem_append]
        exact ⟨h.crossed, hc.2⟩
  unfilled h0 hw := h'.unfilled h0 (h.run.unfilled rfl hw)
  notEmptied hall := h'.notEmptied (h.notEmptied hall)

end Pass

theorem matchLevels_run {w : World} {pre rest : List (Price × OrderGroup)} (hne : rest ≠ [])
    (h : LoopHead s pIncoming pre rest w) :
    MatchRun env s pIncoming w (matchLevels env s pIncoming rest.length pre.length w) := by
  refine matchLevels_rule env s pIncoming (fun _ w r => MatchRun env s pIncoming w r)
    (fun h => ?_) (fun h => h.atEnd) (fun h hcmp => ?_) (fun h _ hrun => h.trans hrun) rest hne h
  · exact {
      steps := h.run.steps
      outcome := .filled (h.run.filled rfl) h.run.endReads
      unfilled := fun _ _ => rfl
      notEmptied := h.notEmptied }
  · exact {
      steps := h.run.steps
      outcome := .stopped h.run.entries (h.run.dead rfl) hcmp h.run.endReads
      unfilled := fun h0 hw => absurd h0 (h.run.unfilled rfl hw)
      notEmptied := h.notEmptied }

/-- The first pass, from the test in front of the loop. -/
theorem loopHead_first {w : World} {best : Price × OrderGroup}
    {rest : List (Price × OrderGroup)} (h : (w.book s).entries = best :: rest)
    (hnd : (ptrs (w.book s)).Nodup) (hnotin : pIncoming ∉ ptrs (w.book s))
    (haccepts : cmp s (w.mem pIncoming).price best.1 = false) :
    LoopHead s pIncoming [] (best :: rest) w where
  levels := h
  passed := List.forall_mem_nil _
  crossed := List.forall_mem_nil _
  accepts := by simpa using haccepts
  nodup := hnd
  notin := hnotin

/-- **A call of `Book::match`** is a run of steps, for an order that is not in the
book and a book in which no order occurs twice. -/
theorem matchOrder_run {w : World} (hnd : (ptrs (w.book s)).Nodup)
    (hnotin : pIncoming ∉ ptrs (w.book s)) :
    MatchRun env s pIncoming w (matchOrder env s pIncoming w) := by
  unfold matchOrder
  cases hentries : (w.book s).entries with
  | nil =>
      exact {
        steps := .refl
        outcome := .noBook hentries rfl
        unfilled := fun h0 h => absurd h0 h
        notEmptied := fun h => h }
  | cons e rest =>
      obtain ⟨best, g⟩ := e
      have hsplit : (w.book s).Split [] best g rest := hentries
      dsimp only
      by_cases hcmp : cmp s (w.mem pIncoming).price best = true
      · rw [if_pos (by exact hcmp)]
        exact {
          steps := .refl
          outcome := .stopped hsplit (by simp) hcmp rfl
          unfilled := fun h0 h => absurd h0 h
          notEmptied := fun h => h }
      · rw [if_neg (by exact hcmp)]
        exact matchLevels_run (List.cons_ne_nil _ _)
          (loopHead_first hentries hnd hnotin (by simpa using hcmp))

end LinuxProgram.PrestoLabs
