import LinuxProgram.PrestoLabs.MatchRun
import LinuxProgram.PrestoLabs.Rules

/-!
# The invariant of both books

`BookInv` holds between any two statements of either matching rule: no book
refers to an order twice, every order rests on its own side under its own price,
two slots never hold the same line, and the running total of a level is at least
the quantity left on it.  In the auction the last clause is strict — `restoreQty`
writes a prefix sum into the total — and it is what makes erasing a level by its
total harmless.

`MatchStep.bookInv` carries it through a matching run, `SessionInv` through the
line loops: it adds that the slot the next order goes to is not in use, and that
the memory holds what the lines read so far say.
-/

namespace LinuxProgram.PrestoLabs

open Lib

/-! ### The quantity left on a list of orders -/

/-- The sum of `LeavesQty` over a list of slots. -/
def leavesSum (mem : ℕ → OrderEntry) (l : List ℕ) : ℕ := (l.map fun p => (mem p).leaves).sum

section LeavesSum

variable {mem mem' : ℕ → OrderEntry} {l l' : List ℕ}

@[simp] theorem leavesSum_nil : leavesSum mem [] = 0 := rfl

@[simp] theorem leavesSum_cons (p : ℕ) :
    leavesSum mem (p :: l) = (mem p).leaves + leavesSum mem l := by simp [leavesSum]

@[simp] theorem leavesSum_append :
    leavesSum mem (l ++ l') = leavesSum mem l + leavesSum mem l' := by simp [leavesSum]

theorem leavesSum_perm (h : l.Perm l') : leavesSum mem l = leavesSum mem l' :=
  (h.map _).sum_eq

theorem leavesSum_congr (h : ∀ p ∈ l, (mem p).leaves = (mem' p).leaves) :
    leavesSum mem l = leavesSum mem' l :=
  congrArg List.sum (List.map_congr_left h)

theorem leavesSum_mono (h : ∀ p, (mem p).leaves ≤ (mem' p).leaves) :
    leavesSum mem l ≤ leavesSum mem' l :=
  List.sum_le_sum fun p _ => h p

variable (mem) in
theorem leaves_le_leavesSum {p : ℕ} (h : p ∈ l) : (mem p).leaves ≤ leavesSum mem l :=
  List.single_le_sum (fun _ _ => Nat.zero_le _) _ (List.mem_map_of_mem h)

end LeavesSum

section Traded

variable {w : World} {r pIncoming : ℕ} {os : List ℕ}

theorem tradedMem_leaves_le (p : ℕ) :
    (tradedMem w r pIncoming p).leaves ≤ (w.mem p).leaves := by
  by_cases h1 : p = r
  · subst h1
    rw [tradedMem_leaves_this]
    exact Nat.sub_le _ _
  · by_cases h2 : p = pIncoming
    · subst h2
      rw [tradedMem_leaves_incoming (Ne.symm h1)]
      exact Nat.sub_le _ _
    · rw [tradedMem_of_ne h1 h2]

/-- Orders that take no part in a trade keep their quantity. -/
theorem leavesSum_tradedMem (h1 : r ∉ os) (h2 : pIncoming ∉ os) :
    leavesSum (tradedMem w r pIncoming) os = leavesSum w.mem os :=
  leavesSum_congr fun _ hp => congrArg OrderEntry.leaves
    (tradedMem_of_ne (fun e => h1 (e ▸ hp)) fun e => h2 (e ▸ hp))

/-- **A fill takes what it crosses off the level**, whether or not the filled
order stays. -/
theorem leavesSum_fill (h1 : r ∉ os) (h2 : pIncoming ∉ os) :
    leavesSum (tradedMem w r pIncoming)
        (if (tradedMem w r pIncoming r).leaves = 0 then os else r :: os)
      + (crossed w r pIncoming).toNat = leavesSum w.mem (r :: os) := by
  have hr := tradedMem_leaves_this w r pIncoming
  have hle := crossed_le_this w r pIncoming
  rw [leavesSum_cons]
  split
  · rw [leavesSum_tradedMem h1 h2]
    omega
  · rw [leavesSum_cons, leavesSum_tradedMem h1 h2]
    omega

end Traded

/-! ### `BookInv` -/

/-- **The invariant of the two books.** -/
structure BookInv (w : World) : Prop where
  nodup : ∀ s, (ptrs (w.book s)).Nodup
  own : ∀ s, ∀ e ∈ (w.book s).entries, ∀ p ∈ e.2.mOrders,
    (w.mem p).side = s ∧ (w.mem p).price = e.1
  bound : ∀ s, ∀ e ∈ (w.book s).entries, leavesSum w.mem e.2.mOrders ≤ e.2.mLeavesQty
  lineInj : ∀ p q n, (w.mem p).line = some n → (w.mem q).line = some n → p = q

namespace BookInv

variable {w : World}

theorem side_of_mem_ptrs (h : BookInv w) {s : Side} {p : ℕ} (hp : p ∈ ptrs (w.book s)) :
    (w.mem p).side = s := by
  obtain ⟨e, he, hp⟩ := List.mem_flatMap.mp hp
  exact (h.own s e he p hp).1

/-- An order is not in the book of the other side. -/
theorem notMem_ptrs (h : BookInv w) {s : Side} {p : ℕ} (hp : (w.mem p).side = s.opposite) :
    p ∉ ptrs (w.book s) := fun hmem =>
  s.opposite_ne (hp.symm.trans (h.side_of_mem_ptrs hmem))

section Split

variable {s : Side} {pre post : List (Price × OrderGroup)} {key : Price} {g : OrderGroup}
  {r : ℕ} {os : List ℕ}

theorem group_nodup (h : BookInv w) (hs : (w.book s).Split pre key g post) :
    g.mOrders.Nodup := by
  have hnd := h.nodup s
  rw [ptrs_of_split hs] at hnd
  exact (List.nodup_append.mp (List.nodup_append.mp hnd).2.1).1

/-- No order of a level is in another level. -/
theorem group_disjoint (h : BookInv w) (hs : (w.book s).Split pre key g post) :
    ∀ e ∈ pre ++ post, ∀ p ∈ e.2.mOrders, p ∉ g.mOrders := by
  have hnd := h.nodup s
  rw [ptrs_of_split hs, List.nodup_append] at hnd
  obtain ⟨-, hnd, hpre⟩ := hnd
  rw [List.nodup_append] at hnd
  intro e he p hp hg
  rcases List.mem_append.mp he with he | he
  · exact hpre p (List.mem_flatMap.mpr ⟨e, he, hp⟩) p (List.mem_append_left _ hg) rfl
  · exact hnd.2.2 p hg p (List.mem_flatMap.mpr ⟨e, he, hp⟩) rfl

/-- The first order of a level is in no other level. -/
theorem head_notMem (h : BookInv w) (hs : (w.book s).Split pre key g post)
    (hg : g.mOrders = r :: os) : r ∉ os ∧ ∀ e ∈ pre ++ post, r ∉ e.2.mOrders := by
  have hnd := h.group_nodup hs
  rw [hg, List.nodup_cons] at hnd
  exact ⟨hnd.1, fun e he hr => h.group_disjoint hs e he r hr (by simp [hg])⟩

/-- The incoming order is in no level. -/
theorem incoming_notMem (h : BookInv w) {p : ℕ} (hp : (w.mem p).side = s.opposite)
    {e : Price × OrderGroup} (he : e ∈ (w.book s).entries) : p ∉ e.2.mOrders := fun hmem =>
  h.notMem_ptrs hp (List.mem_flatMap.mpr ⟨e, he, hmem⟩)

end Split

end BookInv

/-- What `BookInv` says about one level of book `s`. -/
def LevelOk (w : World) (s : Side) (e : Price × OrderGroup) : Prop :=
  (∀ p ∈ e.2.mOrders, (w.mem p).side = s ∧ (w.mem p).price = e.1) ∧
    leavesSum w.mem e.2.mOrders ≤ e.2.mLeavesQty

theorem BookInv.levelOk {w : World} (hI : BookInv w) {s : Side} {e : Price × OrderGroup}
    (he : e ∈ (w.book s).entries) : LevelOk w s e :=
  ⟨hI.own s e he, hI.bound s e he⟩

/-- Replacing one book: only its own levels have to be looked at. -/
theorem BookInv.setBook {w : World} (hI : BookInv w) {s : Side} {m : Levels s}
    (hnd : (ptrs m).Nodup) (hok : ∀ e ∈ m.entries, LevelOk w s e) : BookInv (w.setBook s m) where
  nodup s' := by
    by_cases hs : s' = s
    · subst hs
      rwa [World.setBook_book_self]
    · rw [World.setBook_book_of_ne _ _ _ hs]
      exact hI.nodup s'
  own s' e he := by
    by_cases hs : s' = s
    · subst hs
      rw [World.setBook_book_self] at he
      exact (hok e he).1
    · rw [World.setBook_book_of_ne _ _ _ hs] at he
      exact hI.own s' e he
  bound s' e he := by
    by_cases hs : s' = s
    · subst hs
      rw [World.setBook_book_self] at he
      exact (hok e he).2
    · rw [World.setBook_book_of_ne _ _ _ hs] at he
      exact hI.bound s' e he
  lineInj := hI.lineInj

variable {env : Platform} {s : Side} {pIncoming : ℕ}

section Preservation

variable {w : World} {pre post : List (Price × OrderGroup)} {key : Price} {g g' : OrderGroup}

/-- Replacing one level of a book. -/
theorem BookInv.setLevel (hI : BookInv w) (h : (w.book s).Split pre key g post)
    {m : Levels s} (hm : m.Split pre key g' post) (hnd : (ptrs m).Nodup)
    (hok : LevelOk w s (key, g')) : BookInv (w.setBook s m) := by
  refine hI.setBook hnd fun e he => ?_
  rw [hm, List.mem_append, List.mem_cons] at he
  rcases he with he | rfl | he
  · exact hI.levelOk (by rw [h]; simp [he])
  · exact hok
  · exact hI.levelOk (by rw [h]; simp [he])

variable (env) in
theorem BookInv.sort (hI : BookInv w) (h : (w.book s).Split pre key g post) :
    BookInv (sortGroup env s pre.length w) := by
  have hperm := sortOrders_perm env w.mem g.mOrders
  have hsplit := h.modifyAt fun g => { g with mOrders := sortOrders env w.mem g.mOrders }
  refine hI.setLevel h hsplit ?_ ⟨fun p hp => ?_, ?_⟩
  · have hp := ptrs_of_split hsplit
    rw [hp]
    refine (List.Perm.nodup_iff ?_).mp (hI.nodup s)
    rw [ptrs_of_split h]
    exact (hperm.symm.append_right _).append_left _
  · exact hI.own _ _ h.mem p (hperm.subset hp)
  · exact (leavesSum_perm hperm).trans_le (hI.bound _ _ h.mem)

theorem BookInv.eraseGroup (hI : BookInv w) (h : (w.book s).Split pre key g post) :
    BookInv (w.eraseGroup s pre.length) := by
  refine hI.setBook ?_ fun e he => ?_
  · refine (hI.nodup s).sublist ?_
    rw [ptrs, h.eraseAt, ptrs_of_split h, List.flatMap_append]
    exact List.Sublist.append_left (List.sublist_append_right _ _) _
  · rw [h.eraseAt, List.mem_append] at he
    refine hI.levelOk ?_
    rw [h, List.mem_append, List.mem_cons]
    tauto

/-- A trade lowers quantities and changes nothing else that `BookInv` looks at. -/
theorem BookInv.traded (hI : BookInv w) {r : ℕ} (hne : r ≠ pIncoming) :
    BookInv (matchEntry s r pIncoming w).2 := by
  have hmem := matchEntry_mem (w := w) s hne
  exact {
    nodup := by rw [matchEntry_book]; exact hI.nodup
    own := fun s' e he p hp => by
      rw [matchEntry_book] at he
      have hline := tradedMem_toOrderLine w r pIncoming p
      rw [hmem]
      exact ⟨(congrArg OrderLine.side hline).trans (hI.own s' e he p hp).1,
        (congrArg OrderLine.price hline).trans (hI.own s' e he p hp).2⟩
    bound := fun s' e he => by
      rw [matchEntry_book] at he
      rw [hmem]
      exact (leavesSum_mono tradedMem_leaves_le).trans (hI.bound s' e he)
    lineInj := fun p q n hp hq => by
      rw [hmem, tradedMem_line] at hp hq
      exact hI.lineInj p q n hp hq }

theorem BookInv.fill (hI : BookInv w) (h : (w.book s).Split pre key g post) {r : ℕ}
    {os : List ℕ} (hg : g.mOrders = r :: os) (hne : r ≠ pIncoming)
    (hside : (w.mem pIncoming).side = s.opposite) :
    BookInv (fillStep s pre.length r pIncoming w) := by
  have hT := hI.traded (s := s) hne
  have hsplit := fillStep_split h hg hne
  have hsetBook : fillStep s pre.length r pIncoming w = (matchEntry s r pIncoming w).2.setBook s
      ((fillStep s pre.length r pIncoming w).book s) := by
    rw [fillStep_eq hne, World.setBook_book_self]
  have hkept : ∀ p ∈ (if (tradedMem w r pIncoming r).leaves = 0 then os else r :: os),
      p ∈ r :: os := by
    intro p hp
    split at hp
    · exact List.mem_cons_of_mem _ hp
    · exact hp
  rw [hsetBook]
  refine hT.setLevel (by rw [matchEntry_book]; exact h) hsplit ?_ ⟨fun p hp => ?_, ?_⟩
  · refine (hI.nodup s).sublist ?_
    rw [ptrs_of_split hsplit, ptrs_of_split h, hg]
    refine List.Sublist.append_left (List.Sublist.append_right ?_ _) _
    dsimp only
    split
    · exact List.sublist_cons_self _ _
    · exact List.Sublist.refl _
  · refine hT.own s (key, g) (by rw [matchEntry_book]; exact h.mem) p ?_
    rw [hg]
    exact hkept p hp
  · have hin := hI.incoming_notMem hside h.mem
    have hb := hI.bound _ _ h.mem
    dsimp only at hin hb ⊢
    rw [hg] at hin hb
    rw [List.mem_cons, not_or] at hin
    rw [matchEntry_mem s hne]
    have hsum := leavesSum_fill (w := w) (hI.head_notMem h hg).1 hin.2
    omega

end Preservation

/-- **A matching step keeps the invariant.** -/
theorem MatchStep.bookInv {w w' : World} (h : MatchStep env s pIncoming w w')
    (hside : (w.mem pIncoming).side = s.opposite) (hI : BookInv w) : BookInv w' := by
  cases h with
  | sort h => exact hI.sort _ h
  | fill h hg hne hdead hkey hprice => exact hI.fill h hg hne hside
  | drop h hzero => exact hI.eraseGroup h
  | readEnd => exact ⟨hI.nodup, hI.own, hI.bound, hI.lineInj⟩

/-- **A matching run keeps the invariant.** -/
theorem MatchSteps.bookInv {w w' : World} (h : MatchSteps env s pIncoming w w')
    (hside : (w.mem pIncoming).side = s.opposite) (hI : BookInv w) : BookInv w' := by
  induction h with
  | refl => exact hI
  | tail hsteps hstep ih =>
      exact hstep.bookInv ((MatchSteps.side_eq hsteps pIncoming).trans hside) ih

/-! ### What a step does to a level -/

/-- **What a matching step from `w` to `w'` did to a level of the book**, as the book of
`w'` has it. -/
inductive LevelStep (s : Side) (pIncoming : ℕ) (w w' : World) : Price × OrderGroup → Prop
  /-- nothing, and nothing to its orders -/
  | kept {e} (he : e ∈ (w.book s).entries) (hmem : ∀ p ∈ e.2.mOrders, w'.mem p = w.mem p) :
      LevelStep s pIncoming w w' e
  /-- its vector was sorted -/
  | sorted {key g l} (hg : (key, g) ∈ (w.book s).entries) (hmem : w'.mem = w.mem)
      (hperm : l.Perm g.mOrders) : LevelStep s pIncoming w w' (key, { g with mOrders := l })
  /-- its first order traded -/
  | filled {key g r os} (hg : (key, g) ∈ (w.book s).entries) (hhead : g.mOrders = r :: os)
      (hr : r ∉ os) (hin : pIncoming ∉ os) (hne : r ≠ pIncoming)
      (hmem : w'.mem = tradedMem w r pIncoming) :
      LevelStep s pIncoming w w' (key,
        { g with
          mOrders := if (tradedMem w r pIncoming r).leaves = 0 then os else r :: os
          mLeavesQty := g.mLeavesQty - (crossed w r pIncoming).toNat })

/-- Every level a step leaves in the book. -/
theorem MatchStep.levelStep {w w' : World} (h : MatchStep env s pIncoming w w') (hI : BookInv w)
    (hside : (w.mem pIncoming).side = s.opposite) :
    ∀ e ∈ (w'.book s).entries, LevelStep s pIncoming w w' e := by
  intro e he
  cases h with
  | @sort pre key g post h =>
      have hold : ∀ x ∈ pre ++ post, LevelStep s pIncoming w (sortGroup env s pre.length w) x :=
        fun x hx => .kept (by
          rw [h, List.mem_append, List.mem_cons]
          exact (List.mem_append.mp hx).imp id .inr) fun _ _ => rfl
      rw [sortGroup_split _ h, List.mem_append, List.mem_cons] at he
      rcases he with he | rfl | he
      · exact hold e (List.mem_append_left _ he)
      · exact .sorted h.mem rfl (sortOrders_perm env w.mem g.mOrders)
      · exact hold e (List.mem_append_right _ he)
  | @fill pre key g post r os h hg hne hdead hkey hprice =>
      obtain ⟨hr, hothers⟩ := hI.head_notMem h hg
      have hmem := fillStep_mem (s := s) (w := w) hne pre.length
      have hold : ∀ x ∈ pre ++ post,
          LevelStep s pIncoming w (fillStep s pre.length r pIncoming w) x := by
        intro x hx
        have hx' : x ∈ (w.book s).entries := by
          rw [h, List.mem_append, List.mem_cons]
          exact (List.mem_append.mp hx).imp id .inr
        refine .kept hx' fun p hp => ?_
        rw [hmem]
        refine tradedMem_of_ne ?_ ?_
        · rintro rfl
          exact hothers x hx hp
        · rintro rfl
          exact hI.incoming_notMem hside hx' hp
      rw [fillStep_split h hg hne, List.mem_append, List.mem_cons] at he
      rcases he with he | rfl | he
      · exact hold e (List.mem_append_left _ he)
      · exact .filled h.mem hg hr
          (fun hp => hI.incoming_notMem hside h.mem (by simp [hg, hp])) hne hmem
      · exact hold e (List.mem_append_right _ he)
  | @drop pre key g post h hzero =>
      rw [eraseGroup_entries h, List.mem_append] at he
      refine .kept ?_ fun _ _ => rfl
      rw [h, List.mem_append, List.mem_cons]
      exact he.imp id .inr
  | readEnd => exact .kept he fun _ _ => rfl

/-! ### The quantity a book offers -/

/-- The quantity left on the levels of a book at the prices in `φ`. -/
def restingQty (w : World) (s : Side) (φ : Price → Bool) : ℕ :=
  SortedMap.sumWhere φ (fun g => leavesSum w.mem g.mOrders) (w.book s).entries

/-- The quantity executed so far. -/
def executed (w : World) : ℕ := (w.reports.map fun r => r.mCrossQty.toNat).sum

section Quantity

variable {w w' : World}

theorem restingQty_of_split {pre post : List (Price × OrderGroup)} {key : Price}
    {g : OrderGroup} (h : (w.book s).Split pre key g post) (φ : Price → Bool) :
    restingQty w s φ = SortedMap.sumWhere φ (fun g => leavesSum w.mem g.mOrders) pre +
      ((if φ key then leavesSum w.mem g.mOrders else 0) +
        SortedMap.sumWhere φ (fun g => leavesSum w.mem g.mOrders) post) := by
  rw [restingQty, show (w.book s).entries = _ from h]
  simp

/-- A book without orders offers nothing. -/
theorem restingQty_eq_zero {φ : Price → Bool}
    (h : ∀ e ∈ (w.book s).entries, φ e.1 = true → e.2.mOrders = []) : restingQty w s φ = 0 :=
  SortedMap.sumWhere_eq_zero _ _ fun e he hφ => by simp [h e he hφ]

/-- The two orders of a report, by side. -/
theorem onSide_of_sides {r : ReportEntry} {s : Side} (h : r.entry1.side = s.opposite)
    (s' : Side) : r.onSide s' = if s' = s then r.entry2 else r.entry1 := by
  rw [ReportEntry.onSide, h]
  cases s <;> cases s' <;> simp [Side.opposite]

/-- The resting order of a report is the one on the side of the book. -/
theorem crossReport_onSide {pThis : ℕ} (hside : (w.mem pIncoming).side = s.opposite)
    (s' : Side) : (crossReport w pThis pIncoming).onSide s'
      = tradedMem w pThis pIncoming (if s' = s then pThis else pIncoming) := by
  have hline := tradedMem_toOrderLine w pThis pIncoming pIncoming
  rw [onSide_of_sides (s := s) ((congrArg OrderLine.side hline).trans hside), crossReport]
  split
  · rfl
  · rfl

/-- What a step moves: the quantity `c`, from the level at `key` to the incoming
order, into a report.  The better levels have no order left. -/
structure Moves (s : Side) (pIncoming : ℕ) (w w' : World) (key : Price) (c : ℕ) : Prop where
  leaves : (w'.mem pIncoming).leaves + c = (w.mem pIncoming).leaves
  executed : executed w' = executed w + c
  reports : w'.reports = w.reports ∨ ∃ r, w'.reports = w.reports ++ [r] ∧
    r.mCrossQty.toNat = c ∧ (r.onSide s).price = key ∧
    (r.onSide s.opposite).price = (w.mem pIncoming).price
  resting : ∀ φ, restingQty w' s φ + (if φ key then c else 0) = restingQty w s φ
  best : c ≠ 0 → ∀ e ∈ (w.book s).entries, cmp s e.1 key = true → e.2.mOrders = []
  limit : c ≠ 0 → cmp s (w.mem pIncoming).price key = false

/-- A step that leaves the orders alone moves nothing. -/
theorem Moves.zero (hmem : w'.mem = w.mem) (hreports : w'.reports = w.reports)
    (hresting : ∀ φ, restingQty w' s φ = restingQty w s φ) : Moves s pIncoming w w' 0 0 where
  leaves := by rw [hmem, Nat.add_zero]
  executed := by rw [PrestoLabs.executed, hreports]; rfl
  reports := .inl hreports
  resting φ := by rw [hresting]; simp
  best h := absurd rfl h
  limit h := absurd rfl h

theorem BookInv.fill_moves (hI : BookInv w) {pre post : List (Price × OrderGroup)}
    {key : Price} {g : OrderGroup} {r : ℕ} {os : List ℕ} (h : (w.book s).Split pre key g post)
    (hg : g.mOrders = r :: os) (hne : r ≠ pIncoming) (hdead : ∀ e ∈ pre, e.2.mOrders = [])
    (hprice : cmp s (w.mem pIncoming).price key = false)
    (hside : (w.mem pIncoming).side = s.opposite) :
    Moves s pIncoming w (fillStep s pre.length r pIncoming w) key
      (crossed w r pIncoming).toNat where
  leaves := by
    have := crossed_le_incoming w r pIncoming
    rw [fillStep_mem hne, tradedMem_leaves_incoming hne]
    omega
  executed := by
    simp only [PrestoLabs.executed]
    rw [fillStep_reports hne]
    simp [crossReport]
  reports := by
    have hline := tradedMem_toOrderLine w r pIncoming
    have hrprice : (w.mem r).price = key := (hI.own s _ h.mem r (by simp [hg])).2
    refine .inr ⟨_, fillStep_reports hne _, rfl, ?_, ?_⟩
    · rw [crossReport_onSide hside, if_pos rfl]
      exact (congrArg OrderLine.price (hline r)).trans hrprice
    · rw [crossReport_onSide hside, if_neg s.opposite_ne]
      exact congrArg OrderLine.price (hline pIncoming)
  resting φ := by
    have hhead := hI.head_notMem h hg
    have hin : ∀ e ∈ pre ++ (key, g) :: post, pIncoming ∉ e.2.mOrders := fun e he =>
      hI.incoming_notMem hside (e := e) (by rw [h]; exact he)
    have hkeep : ∀ l, (∀ e ∈ l, e ∈ pre ++ post) →
        SortedMap.sumWhere φ (fun g => leavesSum (tradedMem w r pIncoming) g.mOrders) l
          = SortedMap.sumWhere φ (fun g => leavesSum w.mem g.mOrders) l := by
      intro l hl
      refine SortedMap.sumWhere_congr _ _ fun e he _ => ?_
      refine leavesSum_tradedMem (hhead.2 e (hl e he)) (hin e ?_)
      rcases List.mem_append.mp (hl e he) with he | he
      · exact List.mem_append_left _ he
      · exact List.mem_append_right _ (List.mem_cons_of_mem _ he)
    have hos : pIncoming ∉ os := fun hp => hin (key, g) (by simp) (by simp [hg, hp])
    have hfill := leavesSum_fill (w := w) hhead.1 hos
    rw [restingQty_of_split h, restingQty_of_split (fillStep_split h hg hne), fillStep_mem hne,
      hkeep pre (fun e he => List.mem_append_left _ he),
      hkeep post (fun e he => List.mem_append_right _ he), hg]
    dsimp only
    split
    · omega
    · omega
  best _ e he hcmp := by
    rw [h, List.mem_append, List.mem_cons] at he
    rcases he with he | rfl | he
    · exact hdead e he
    · simp [ComparatorLaws.cmp_self (cmp s) key] at hcmp
    · simp [ComparatorLaws.asymm (h.after he)] at hcmp
  limit _ := hprice

/-- **What a matching step moves.** -/
theorem MatchStep.moves (h : MatchStep env s pIncoming w w') (hI : BookInv w)
    (hside : (w.mem pIncoming).side = s.opposite) : ∃ key c, Moves s pIncoming w w' key c := by
  cases h with
  | sort h =>
      refine ⟨0, 0, .zero rfl rfl fun φ => ?_⟩
      rw [restingQty_of_split h, restingQty_of_split (sortGroup_split _ h)]
      simp only [leavesSum_perm (sortOrders_perm env w.mem _)]
      rfl
  | fill h hg hne hdead hkey hprice =>
      exact ⟨_, _, hI.fill_moves h hg hne hdead hprice hside⟩
  | @drop pre key g post h hzero =>
      refine ⟨0, 0, .zero rfl rfl fun φ => ?_⟩
      have hg : leavesSum w.mem g.mOrders = 0 := by
        have := hI.bound s _ h.mem
        dsimp only at this
        omega
      rw [restingQty_of_split h, restingQty, eraseGroup_entries h, hg]
      simp
      rfl
  | readEnd => exact ⟨0, 0, .zero rfl rfl fun _ => rfl⟩

end Quantity

end LinuxProgram.PrestoLabs
