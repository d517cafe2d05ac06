import LinuxProgram.PrestoLabs.Order

/-!
# The books and the matching loops

The state the program works on and the loops of `Book.hpp` and `Order.hpp`, as
state-passing functions.  Everything is changed where the source changes it: the
orders in the mapped array, the level inside `mOrderMap`, the vector inside the
level, so that the state between two statements of a loop is the state the
program has there.

* `Exchange` — the mapped orders, the two static books, `Accounts`, and the
  reports written so far.
* `World` — an `Exchange` with two ghosts: `calls`, the history of the calls of
  `OrderEntry::match` with the state each was made in, and `endReads`, how often
  the key of `mOrderMap.end()` has been read.
* `matchEntry` — `OrderEntry::match<s>`; `matchGroup` — `OrderGroup::match<s>`;
  `matchOrder` — `Book::match(OrderEntry*)`; `matchQty` — `Book::match(size_t&,
  price_t)`.

An iterator is a position in its container.  The `for` and `do`/`while` loops
recurse on the number of elements between the iterator and `end()`, which every
pass lowers by one: it either erases an element or steps over it.

`Platform` collects what the source leaves to the build and to the machine: the
macro `NORMAL_RULE_APPLY`, the sorting routine behind `std::sort`, and the value
of the `n`-th comparison that reads the key of `mOrderMap.end()`, which is
arbitrary.
-/

namespace LinuxProgram.PrestoLabs

open Lib

/-- **What the source leaves open**, to the build and to the machine.  Every result is for all of
these, or says which it is about. -/
structure Platform where
  normalRuleApply : Bool
  sort : StdSort ℕ
  endKeyCmp : ℕ → Bool
  deriving Inhabited

/-- The levels of one book, best price first, as `std::map` keeps them by its comparator. -/
abbrev Levels (s : Side) := SortedMap (cmp s) OrderGroup

/-- **The state of the program**: everything that outlives a line of the order file. -/
structure Exchange where
  /-- `OrderMapAddr[i]` -/
  mem : ℕ → OrderEntry
  /-- `Book<s>::mOrderMap` -/
  book : (s : Side) → Levels s
  accounts : Accounts
  reports : List ReportEntry

instance : Inhabited Exchange :=
  ⟨{ mem := fun _ => default, book := fun _ => SortedMap.empty, accounts := ∅, reports := [] }⟩

/-- A call `pThis->match<side>(pIncoming)` and the state it was made in. -/
structure MatchCall where
  side : Side
  resting : ℕ
  incoming : ℕ
  before : Exchange

/-- The state together with its ghosts, which no function of the source reads. -/
structure World extends Exchange where
  calls : List MatchCall
  endReads : ℕ

instance : Inhabited World := ⟨{ (default : Exchange) with calls := [], endReads := 0 }⟩

namespace Exchange

/-- `Accounts[party]`. -/
def account (x : Exchange) (party : String) : Account := (x.accounts.lookup party).getD {}

end Exchange

namespace World

def setEntry (w : World) (p : ℕ) (e : OrderEntry) : World :=
  { w with mem := Function.update w.mem p e }

def setBook (w : World) (s : Side) (m : Levels s) : World :=
  { w with book := Function.update w.book s m }

/-- `Accounts[party].update<s>(qty, price)`. -/
def updateAccount (w : World) (party : String) (s : Side) (qty : Quantity) (price : Price) :
    World :=
  { w with accounts := w.accounts.insert party ((w.account party).update s qty price) }

/-- `ReportManager::addReport`. -/
def addReport (w : World) (pOrder1 pOrder2 : ℕ) (crossQty : Quantity) (crossPrice : Price) :
    World :=
  { w with reports := w.reports ++
      [{ id1 := (w.mem pOrder1).id
         id2 := (w.mem pOrder2).id
         mCrossQty := crossQty
         mCrossPrice := crossPrice
         mOrderPtr1 := pOrder1
         mOrderPtr2 := pOrder2
         entry1 := w.mem pOrder1
         entry2 := w.mem pOrder2 }] }

/-- The level an iterator points at, or nothing behind the last one. -/
def group? (w : World) (s : Side) (i : ℕ) : Option OrderGroup :=
  (w.book s).entries[i]?.map Prod.snd

/-- A member function that changes the level in place. -/
def modifyGroup (w : World) (s : Side) (i : ℕ) (f : OrderGroup → OrderGroup) : World :=
  w.setBook s ((w.book s).modifyAt i f)

/-- `BestOrderGroup = mOrderMap.erase(BestOrderGroup)`. -/
def eraseGroup (w : World) (s : Side) (i : ℕ) : World :=
  w.setBook s ((w.book s).eraseAt i)

/-- `Book<s>::addOrder(price, pOrder)`. -/
def addOrder (w : World) (s : Side) (price : Price) (pOrder : ℕ) : World :=
  w.setBook s ((w.book s).upsert price {} (OrderGroup.addOrder pOrder (w.mem pOrder)))

end World

/-! ### One trade -/

/-- The body shared by the two specialisations of `OrderEntry::match`: the order
that rests is booked on side `restSide`, the incoming one on `incSide`. -/
def matchEntryWith (restSide incSide : Side) (pThis pIncoming : ℕ) (w : World) :
    Quantity × World :=
  let crossQty_ := min (w.mem pIncoming).getCurrentQty (w.mem pThis).getCurrentQty
  let w1 := w.setEntry pIncoming ((w.mem pIncoming).crossQty crossQty_)
  let w2 := w1.setEntry pThis ((w1.mem pThis).crossQty crossQty_)
  let price := (w2.mem pThis).price
  let w3 := w2.addReport pIncoming pThis crossQty_ price
  let w4 := w3.updateAccount (w3.mem pThis).party restSide crossQty_ price
  let w5 := w4.updateAccount (w4.mem pIncoming).party incSide crossQty_ price
  (crossQty_, { w5 with calls := w.calls ++ [⟨restSide, pThis, pIncoming, w.toExchange⟩] })

/-- `OrderEntry::match<Side::BUY>`. -/
def matchEntryBUY : ℕ → ℕ → World → Quantity × World := matchEntryWith .BUY .SELL

/-- `OrderEntry::match<Side::SELL>`. -/
def matchEntrySELL : ℕ → ℕ → World → Quantity × World := matchEntryWith .SELL .BUY

/-- `pThis->match<s>(pIncoming)`. -/
def matchEntry : Side → ℕ → ℕ → World → Quantity × World
  | .BUY => matchEntryBUY
  | .SELL => matchEntrySELL

theorem matchEntry_eq (s : Side) : matchEntry s = matchEntryWith s s.opposite := by
  cases s <;> rfl

/-! ### One level -/

variable (env : Platform)

/-- The comparator of both `std::sort` calls: larger `getKey()` first. -/
def keyGreater (mem : ℕ → OrderEntry) (pOrder1 pOrder2 : ℕ) : Bool :=
  (mem pOrder1).getKey env.normalRuleApply > (mem pOrder2).getKey env.normalRuleApply

/-- The vector of a level as `std::sort` leaves it. -/
def sortOrders (mem : ℕ → OrderEntry) (mOrders : List ℕ) : List ℕ :=
  env.sort.run (keyGreater env mem) mOrders

/-- `OrderGroup::sortForAuction`, and the sort that opens `OrderGroup::match`. -/
def sortGroup (s : Side) (i : ℕ) (w : World) : World :=
  w.modifyGroup s i fun g => { g with mOrders := sortOrders env w.mem g.mOrders }

/-- The `for` loop of `OrderGroup::match<s>`, `iter` being `remaining` elements
before `end()`. -/
def matchGroupLoop (s : Side) (i pIncoming : ℕ) : ℕ → ℕ → World → Bool × World
  | 0, _, w => (false, w)
  | remaining + 1, iter, w =>
      match (w.group? s i).bind fun g => g.mOrders[iter]? with
      | none => (false, w)
      | some pThis =>
          let traded := matchEntry s pThis pIncoming w
          let w1 := traded.2.modifyGroup s i fun g =>
            { g with mLeavesQty := g.mLeavesQty - traded.1.toNat }
          let w2 := if (w1.mem pThis).empty
            then w1.modifyGroup s i fun g => { g with mOrders := g.mOrders.eraseIdx iter }
            else w1
          -- `erase` returns the iterator of the order behind
          let iter' := if (w1.mem pThis).empty then iter else iter + 1
          if (w2.mem pIncoming).empty then (true, w2)
          else matchGroupLoop s i pIncoming remaining iter' w2

/-- `OrderGroup::match<s>(pIncoming)` on the level at iterator `i`. -/
def matchGroup (s : Side) (i pIncoming : ℕ) (w : World) : Bool × World :=
  let w := sortGroup env s i w
  matchGroupLoop s i pIncoming (((w.group? s i).map fun g => g.mOrders.length).getD 0) 0 w

/-! ### One book -/

/-- The `do`/`while` loop of `Book::match(OrderEntry*)`, `BestOrderGroup` being
`remaining` levels before `end()`.  The last case of the inner `match` reads the
key of `mOrderMap.end()`. -/
def matchLevels (s : Side) (pIncoming : ℕ) : ℕ → ℕ → World → Bool × World
  | 0, _, w => (true, w)
  | remaining + 1, i, w =>
      let matched := matchGroup env s i pIncoming w
      let emptied := ((matched.2.group? s i).map OrderGroup.empty).getD false
      -- the level goes by its running total, whatever is in its vector
      let w1 := if emptied then matched.2.eraseGroup s i else matched.2
      let i' := if emptied then i else i + 1
      if matched.1 then (true, w1)
      else match (w1.book s).entries[i']? with
        | some (key, _) =>
            if cmp s (w1.mem pIncoming).getPrice key then (false, w1)
            else matchLevels s pIncoming remaining i' w1
        | none =>
            -- `BestOrderGroup->first` behind the last level
            let w2 := { w1 with endReads := w1.endReads + 1 }
            if env.endKeyCmp w1.endReads then (false, w2) else (true, w2)

/-- `Book<s>::match(pIncoming)`: whether the order was fully filled. -/
def matchOrder (s : Side) (pIncoming : ℕ) (w : World) : Bool × World :=
  match (w.book s).entries with
  | [] => (false, w)
  | (best, _) :: rest =>
      if cmp s (w.mem pIncoming).getPrice best then (false, w)
      else matchLevels env s pIncoming (rest.length + 1) 0 w

/-! ### The auction's use of the totals -/

/-- `Book<s>::consolidateQty()`. -/
def consolidateQty {s : Side} (m : Levels s) : Levels s :=
  m.scan OrderGroup.consolidateGroupQty 0

/-- `Book<s>::restoreQty()`. -/
def restoreQty {s : Side} (m : Levels s) : Levels s :=
  m.scan (fun g sumQty => (g.restoreGroupQty, sumQty)) 0

/-- `Book<s>::match(qty, crossPrice)`: the result and the new `qty`. -/
def matchQty {s : Side} (m : Levels s) (qty : ℕ) (crossPrice : Price) : Bool × ℕ :=
  match m.entries with
  | [] => (false, qty)
  | (best, _) :: _ =>
      if cmp s crossPrice best then (false, qty)
      else
        let bestOrderGroup := m.upperBound crossPrice - 1
        let crossQty_ := min qty
          ((m.entries[bestOrderGroup]?.map fun e => e.2.getTotalQty).getD 0)
        (qty - crossQty_ == 0, qty - crossQty_)

end LinuxProgram.PrestoLabs
