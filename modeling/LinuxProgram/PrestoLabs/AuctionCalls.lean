import LinuxProgram.PrestoLabs.Auction

/-!
# The calls of the second pass

The second pass of `ProcessAuctionOrders` changes the state by calls of
`BookSell::match`, one for each buy order it comes to.  A property of every state on the
way is a property of these calls.

* `auctionCalls` — the calls in order, each with the state it is made in.
* `auctionCalls_rule` — the induction over them: what `restoreQty` leaves and every call
  keeps holds in front of every call and at the end.
-/

namespace LinuxProgram.PrestoLabs

open Lib

variable (env : Platform)

/-- The calls of `BookSell::match` in the inner loop of the second pass, each with the
state it is made in. -/
def buyCalls : List ℕ → World → List (ℕ × World)
  | [], _ => []
  | buyOrder :: mOrders, w =>
      (buyOrder, w) :: buyCalls mOrders (matchOrder env .SELL buyOrder w).2

/-- The calls of the outer loop; it is `secondPass` that moves the state. -/
def passCalls (target : Price) : ℕ → ℕ → World → List (ℕ × World)
  | 0, _, _ => []
  | remaining + 1, i, w =>
      match (w.book .BUY).entries[i]? with
      | none => []
      | some (price, _) =>
          if target > price then []
          else
            let w := sortGroup env .BUY i w
            let orders := ((w.group? .BUY i).map OrderGroup.mOrders).getD []
            buyCalls env orders w ++
              passCalls target remaining (i + 1) (matchBuyOrders env orders w)

/-- The state `BookSell::restoreQty` leaves. -/
def auctionRestored (lines : List OrderLine) : World :=
  (auctionOpen lines).setBook .SELL (restoreQty ((auctionOpen lines).book .SELL))

/-- The calls of `BookSell::match(OrderEntry*)` in `ProcessAuctionOrders`. -/
def auctionCalls (lines : List OrderLine) : List (ℕ × World) :=
  passCalls env (targetPrice (auctionOpen lines))
    ((auctionRestored lines).book .BUY).entries.length 0 (auctionRestored lines)

variable {env} {target : Price} {w : World}

theorem passCalls_succ {pre post : List (Price × OrderGroup)} {price : Price} {g : OrderGroup}
    (h : (w.book .BUY).Split pre price g post) (n : ℕ) :
    passCalls env target (n + 1) pre.length w =
      if target > price then []
      else buyCalls env (sortOrders env w.mem g.mOrders) (sortGroup env .BUY pre.length w) ++
        passCalls env target n (pre.length + 1) (passLevel env pre.length g w) := by
  have hget : (w.book .BUY).entries[pre.length]? = some (price, g) := by
    rw [show (w.book .BUY).entries = _ from h]
    simp
  rw [passCalls, hget]
  simp only [passLevel, World.group?_of_split _ _ (sortGroup_split env h),
    Option.map_some, Option.getD_some]

theorem auctionRestored_inv (lines : List OrderLine) : BookInv (auctionRestored lines) :=
  (restore_step default (auctionOpen_inv lines)).bookInv (auctionOpen_inv lines).toBookInv

/-! ### What a pass keeps -/

/-- A call of `BookSell::match` for a buy order. -/
structure BuyCall (p : ℕ) (w : World) : Prop extends BookInv w where
  buy : (w.mem p).side = .BUY

namespace BuyCall

variable {p : ℕ}

variable (env) in
theorem run (h : BuyCall p w) :
    MatchRun env .SELL p w (matchOrder env .SELL p w) :=
  h.toBookInv.matchOrder_run env h.buy

variable (env) in
theorem bookInv_after (h : BuyCall p w) : BookInv (matchOrder env .SELL p w).2 :=
  MatchSteps.bookInv (h.run env).steps h.buy h.toBookInv

variable (env) in
theorem line_after (h : BuyCall p w) (q : ℕ) :
    ((matchOrder env .SELL p w).2.mem q).toOrderLine = (w.mem q).toOrderLine :=
  ((MatchSteps.frame (h.run env).steps).2.2.1 q).1

end BuyCall

/-- **What holds along the calls**: `R` relates the state in front of a list of calls, the
calls, and the state behind them. -/
theorem buyCalls_rule (R : World → List (ℕ × World) → World → Prop) (hnil : ∀ w, R w [] w)
    (hcons : ∀ {p w calls w'}, BuyCall p w → R (matchOrder env .SELL p w).2 calls w' →
      R w ((p, w) :: calls) w') :
    ∀ (orders : List ℕ) {w : World}, BookInv w → (∀ p ∈ orders, (w.mem p).side = .BUY) →
      R w (buyCalls env orders w) (matchBuyOrders env orders w) := by
  intro orders
  induction orders with
  | nil => exact fun _ _ => hnil _
  | cons p orders ih =>
      intro w hI hside
      have hcall : BuyCall p w := ⟨hI, hside p List.mem_cons_self⟩
      refine hcons hcall (ih (hcall.bookInv_after env) fun q hq => ?_)
      rw [hcall.line_after env]
      exact hside q (List.mem_cons_of_mem _ hq)

variable (env target) in
/-- The same along the levels of the pass. -/
theorem passCalls_rule (R : World → List (ℕ × World) → World → Prop) (hnil : ∀ w, R w [] w)
    (hcons : ∀ {p w calls w'}, BuyCall p w → R (matchOrder env .SELL p w).2 calls w' →
      R w ((p, w) :: calls) w')
    (hsort : ∀ {w pre price g post calls w'}, BookInv w → (w.book .BUY).Split pre price g post →
      R (sortGroup env .BUY pre.length w) calls w' → R w calls w')
    (htrans : ∀ {w calls w' calls' w''},
      R w calls w' → R w' calls' w'' → R w (calls ++ calls') w'') :
    ∀ (n : ℕ) {w : World} {pre post : List (Price × OrderGroup)}, BookInv w →
      (w.book .BUY).entries = pre ++ post → post.length = n →
      R w (passCalls env target n pre.length w) (secondPass env target n pre.length w) := by
  intro n
  induction n with
  | zero => exact fun _ _ _ => hnil _
  | succ n ih =>
      intro w pre post hI hentries hlen
      obtain ⟨⟨price, g⟩, post, rfl⟩ := List.exists_cons_of_length_eq_add_one hlen
      rw [passCalls_succ hentries, secondPass_succ hentries]
      by_cases ht : target > price
      · rw [if_pos ht, if_pos ht]
        exact hnil _
      · rw [if_neg ht, if_neg ht]
        obtain ⟨hrun, hsplit⟩ := passLevel_run env hI hentries
        have hside : ∀ p ∈ sortOrders env w.mem g.mOrders,
            ((sortGroup env .BUY pre.length w).mem p).side = .BUY := fun p hp =>
          (hI.own .BUY _ (SortedMap.Split.mem hentries) p ((sortOrders_perm _ _ _).subset hp)).1
        have hlevel := hsort hI hentries
          (buyCalls_rule R hnil hcons _ (hI.sort env hentries) hside)
        have hrest := ih (hrun.bookInv hI) (hsplit.trans (List.append_cons _ _ _))
          (by simpa using hlen)
        rw [List.length_append, List.length_singleton] at hrest
        exact htrans hlevel hrest

variable (env) in
/-- **The induction over the calls of the auction.** -/
theorem auctionCalls_rule (lines : List OrderLine) (I : World → Prop)
    (hinit : I (auctionRestored lines))
    (hsort : ∀ {w pre price g post}, BookInv w → (w.book .BUY).Split pre price g post →
      I w → I (sortGroup env .BUY pre.length w))
    (hcall : ∀ {p w}, BuyCall p w → I w → I (matchOrder env .SELL p w).2) :
    (∀ c ∈ auctionCalls env lines, BuyCall c.1 c.2 ∧ I c.2) ∧
      I (processAuctionOrders env lines) := by
  have hpass := passCalls_rule env (targetPrice (auctionOpen lines))
    (fun w calls w' => I w → (∀ c ∈ calls, BuyCall c.1 c.2 ∧ I c.2) ∧ I w')
    (fun _ hI => ⟨List.forall_mem_nil _, hI⟩)
    (fun hbuy hrest hI => ?_) (fun hB hsplit hrest hI => hrest (hsort hB hsplit hI))
    (fun h h' hI => ?_) _ (auctionRestored_inv lines) (List.nil_append _).symm rfl
  · exact hpass hinit
  · obtain ⟨hcalls, hI'⟩ := hrest (hcall hbuy hI)
    exact ⟨List.forall_mem_cons.mpr ⟨⟨hbuy, hI⟩, hcalls⟩, hI'⟩
  · obtain ⟨hcalls, hI'⟩ := h hI
    obtain ⟨hcalls', hI''⟩ := h' hI'
    exact ⟨List.forall_mem_append.mpr ⟨hcalls, hcalls'⟩, hI''⟩

end LinuxProgram.PrestoLabs
