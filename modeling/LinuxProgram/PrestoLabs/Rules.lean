import LinuxProgram.PrestoLabs.Book

/-!
# The two matching rules

`Rules.hpp`, from the point where `ParseFiles` has delivered the lines and each
line has been converted to an `OrderLine`.

* `processNormalOrders` — continuous matching, one line after the other.  Its
  local variable `index`, the slot the next order is constructed in, advances
  only when the order is added to its book.
* `processAuctionOrders` — all orders are added first (`auctionOpen`), a first
  pass over the consolidated books chooses `targetPrice`, a second pass
  (`auctionClose`) matches the buy orders at or above it.

Both are modelled as built by the Makefile, with `NDEBUG`, so that assertions
and `dispBook` are absent.
-/

namespace LinuxProgram.PrestoLabs

open Lib

variable (env : Platform)

/-- The state of the line loop: the world, the local `index`, and as a ghost the
number of lines read. -/
structure Session extends World where
  /-- The local `int index`, the place of the next order in the mapped file.  A natural number
  stands for it, so that the model is of files with fewer than `2 ^ 31` lines. -/
  index : ℕ
  lineNo : ℕ

instance : Inhabited Session := ⟨{ (default : World) with index := 0, lineNo := 0 }⟩

/-- `new(OrderMapAddr + index) OrderEntry(OrderStr)`. -/
def Session.construct (st : Session) (o : OrderLine) : World :=
  st.toWorld.setEntry st.index (OrderEntry.ofLine st.lineNo o)

/-! ### Normal rule -/

/-- The part of the loop body of `ProcessNormalOrders` after the construction,
for an order that is matched against `Book<s>` and added to the other book.  The
result tells whether `index` advances. -/
def normalMatch (s : Side) (pIncoming : ℕ) (w : World) : Bool × World :=
  let matched := matchOrder env s pIncoming w
  if matched.1 then (false, matched.2)
  else (true, matched.2.addOrder s.opposite (matched.2.mem pIncoming).getPrice pIncoming)

/-- One line of `ProcessNormalOrders`. -/
def normalLine (st : Session) (o : OrderLine) : Session :=
  let w := st.construct o
  -- `continue`: the slot is used again, and the order is in no book
  if (w.mem st.index).empty then
    { w with index := st.index, lineNo := st.lineNo + 1 }
  else
    let matched :=
      if (w.mem st.index).isBuy then normalMatch env .SELL st.index w
      else normalMatch env .BUY st.index w
    { matched.2 with
      index := if matched.1 then st.index + 1 else st.index
      lineNo := st.lineNo + 1 }

/-- `ProcessNormalOrders`, up to the state it leaves. -/
def processNormalOrders (lines : List OrderLine) : Session :=
  lines.foldl (normalLine env) default

/-! ### Auction rule -/

/-- One line of the reading loop of `ProcessAuctionOrders`. -/
def auctionLine (st : Session) (o : OrderLine) : Session :=
  let w := st.construct o
  let w :=
    if (w.mem st.index).isBuy then w.addOrder .BUY (w.mem st.index).getPrice st.index
    else w.addOrder .SELL (w.mem st.index).getPrice st.index
  { w with index := st.index + 1, lineNo := st.lineNo + 1 }

/-- The state after the reading loop. -/
def auctionRead (lines : List OrderLine) : Session :=
  lines.foldl auctionLine default

/-- The reading loop and the two calls of `consolidateQty`. -/
def auctionOpen (lines : List OrderLine) : World :=
  let w := (auctionRead lines).toWorld
  let w := w.setBook .BUY (consolidateQty (w.book .BUY))
  w.setBook .SELL (consolidateQty (w.book .SELL))

/-- The loop body of the first pass, with `maxVolume` and `targetPrice` as an
exact rational and a price. -/
def firstPassStep (sell : Levels .SELL) (best : ℚ × Price)
    (buyOrderGroup : Price × OrderGroup) : ℚ × Price :=
  let buyPrice := buyOrderGroup.1
  let qty := (matchQty sell buyOrderGroup.2.getTotalQty buyPrice).2
  let totalCrossQty := buyOrderGroup.2.getTotalQty - qty
  if (buyPrice.toNat : ℚ) / 1000 * totalCrossQty > best.1 then
    (max best.1 ((totalCrossQty : ℚ) / 1000 * buyPrice.toNat), buyPrice)
  else best

/-- The first pass: `maxVolume` and `targetPrice`. -/
def firstPass (w : World) : ℚ × Price :=
  (w.book .BUY).entries.foldl (firstPassStep (w.book .SELL)) (0, 0)

def targetPrice (w : World) : Price := (firstPass w).2

/-- The inner loop of the second pass. -/
def matchBuyOrders (mOrders : List ℕ) (w : World) : World :=
  mOrders.foldl (fun w buyOrder => (matchOrder env .SELL buyOrder w).2) w

/-- The outer loop of the second pass, `buyOrderGroupPair` being `remaining`
levels before `BookBuy::end()`. -/
def secondPass (target : Price) : ℕ → ℕ → World → World
  | 0, _, w => w
  | remaining + 1, i, w =>
      match (w.book .BUY).entries[i]? with
      | none => w
      | some (price, _) =>
          -- `break`: the levels behind are cheaper still
          if target > price then w
          else
            let w := sortGroup env .BUY i w
            let orders := ((w.group? .BUY i).map OrderGroup.mOrders).getD []
            secondPass target remaining (i + 1) (matchBuyOrders env orders w)

/-- `restoreQty` and the second pass. -/
def auctionClose (target : Price) (w : World) : World :=
  let w := w.setBook .SELL (restoreQty (w.book .SELL))
  secondPass env target (w.book .BUY).entries.length 0 w

/-- `ProcessAuctionOrders`, up to the state it leaves. -/
def processAuctionOrders (lines : List OrderLine) : World :=
  auctionClose env (targetPrice (auctionOpen lines)) (auctionOpen lines)

end LinuxProgram.PrestoLabs
