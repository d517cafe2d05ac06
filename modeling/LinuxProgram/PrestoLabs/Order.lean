import Mathlib
import LinuxProgram.Lib.SortedMap
import LinuxProgram.Lib.StdSort

/-!
# Orders, price levels, accounts and reports

The data of the matching engine (`types.hpp`, `Order.hpp`, `Account.hpp`,
`Report.hpp`) and the operations that touch one record at a time.

* `OrderLine` — the six fields of one line of `orders.csv`, converted to the
  types of `types.hpp`.
* `OrderEntry` — the record constructed from a line.  The anonymous union
  `{ uint64_t Key; OrderInfo Info; }` is the pair `leavesQty`, `normSequence`;
  `Key` is read back from it by `keyBits` in the little-endian layout.
* `OrderGroup` — one price level.
* `Account`, `ReportEntry` — what a trade is booked and reported as.

An order is addressed by the number of its slot in the mapped array
(`OrderMapAddr + index`), so `OrderEntry*` is `ℕ`.  Quantities, prices and
sequence numbers are the 32-bit words of the source; the `size_t` totals are
`ℕ`.

Two fields are ghosts, read by no operation: `OrderEntry.line`, the position of
the line an entry was constructed from, and `ReportEntry.entry1`/`entry2`, the
two orders as they were when the report was written.  A slot is reused as soon
as its order is filled on arrival, so neither the slot nor the (possibly
repeated) ID says which order a report is about; the ghosts do.
-/

namespace LinuxProgram.PrestoLabs

open Lib

/-! ### `types.hpp` -/

abbrev Price := UInt32
abbrev Quantity := UInt32
abbrev Sequence := UInt32

/-- `enum Side : char`. -/
inductive Side
  | BUY
  | SELL
  deriving DecidableEq, Repr, Inhabited

/-- The other side of the market. -/
def Side.opposite : Side → Side
  | .BUY => .SELL
  | .SELL => .BUY

@[simp] theorem Side.opposite_opposite (s : Side) : s.opposite.opposite = s := by
  cases s <;> rfl

@[simp] theorem Side.opposite_ne (s : Side) : s.opposite ≠ s := by
  cases s <;> decide

@[simp] theorem Side.ne_opposite (s : Side) : s ≠ s.opposite := by
  cases s <;> decide

/-- `cmpBuy`, the order of the levels of the buy book: best price first. -/
def cmpBuy (p1 p2 : Price) : Bool := p1 > p2

/-- `cmpSell`, the order of the levels of the sell book. -/
def cmpSell (p1 p2 : Price) : Bool := p1 < p2

/-- `Book<s, CMP>::key_comp()`. -/
def cmp : Side → Price → Price → Bool
  | .BUY => cmpBuy
  | .SELL => cmpSell

theorem cmp_buy_iff {p q : Price} : cmp .BUY p q = true ↔ q.toNat < p.toNat := by
  simp [cmp, cmpBuy, UInt32.lt_iff_toNat_lt]

theorem cmp_sell_iff {p q : Price} : cmp .SELL p q = true ↔ p.toNat < q.toNat := by
  simp [cmp, cmpSell, UInt32.lt_iff_toNat_lt]

instance (s : Side) : ComparatorLaws (cmp s) where
  irrefl a := by
    cases s <;> simp [cmp, cmpBuy, cmpSell]
  trans {a b c} hab hbc := by
    cases s
    · rw [cmp_buy_iff] at *; omega
    · rw [cmp_sell_iff] at *; omega
  total {a b} hab hba := by
    refine UInt32.toNat_inj.mp ?_
    cases s
    · rw [← Bool.not_eq_true, cmp_buy_iff] at hab hba; omega
    · rw [← Bool.not_eq_true, cmp_sell_iff] at hab hba; omega

/-! ### `OrderEntry` -/

/-- One line of the order file: `ID,party,price,qty,sequence,side`, the price
already scaled by `SCALIANG_FACTOR`.  The texts are what `strncpy` leaves of the fields in an
`ID_t` and a `party_t`, so that an id has at most 9 characters and a party at most 20. -/
structure OrderLine where
  id : String
  party : String
  price : Price
  qty : Quantity
  sequence : Sequence
  side : Side
  deriving DecidableEq, Repr, Inhabited

/-- **An order record.**  `normSequence` is written once, by the constructor, as
`~Sequence`; the record carries that fact. -/
structure OrderEntry extends OrderLine where
  /-- `Info.LeavesQty` -/
  leavesQty : Quantity
  /-- `Info.NormSequence` -/
  normSequence : Sequence
  norm_eq : normSequence = ~~~sequence
  /-- Ghost: the line this entry was constructed from. -/
  line : Option ℕ

namespace OrderEntry

/-- A slot no order was constructed in yet. -/
instance : Inhabited OrderEntry where
  default := { (default : OrderLine) with
    leavesQty := 0, normSequence := ~~~(default : OrderLine).sequence, norm_eq := rfl,
    line := none }

/-- The constructor, for the line at position `n` of the file. -/
def ofLine (n : ℕ) (o : OrderLine) : OrderEntry :=
  { o with
    leavesQty := o.qty
    normSequence := ~~~o.sequence
    norm_eq := rfl
    line := some n }

def crossQty (e : OrderEntry) (qty : Quantity) : OrderEntry :=
  { e with leavesQty := e.leavesQty - qty }

def empty (e : OrderEntry) : Bool := e.leavesQty == 0

def isBuy (e : OrderEntry) : Bool := e.side = .BUY

def getPrice (e : OrderEntry) : Price := e.price

def getCurrentQty (e : OrderEntry) : Quantity := e.leavesQty

def getTotalQty (e : OrderEntry) : Quantity := e.qty

/-- `Key`, the union read as one word. -/
def keyBits (e : OrderEntry) : ℕ := e.normSequence.toNat * 2 ^ 32 + e.leavesQty.toNat

/-- `getKey()`, which the preprocessor selects by `NORMAL_RULE_APPLY`. -/
def getKey (normalRuleApply : Bool) (e : OrderEntry) : ℕ :=
  if normalRuleApply then e.keyBits else e.getCurrentQty.toNat

/-- `LeavesQty` as a number. -/
def leaves (e : OrderEntry) : ℕ := e.leavesQty.toNat

@[simp] theorem crossQty_toOrderLine (e : OrderEntry) (q : Quantity) :
    (e.crossQty q).toOrderLine = e.toOrderLine := rfl

@[simp] theorem crossQty_line (e : OrderEntry) (q : Quantity) :
    (e.crossQty q).line = e.line := rfl

@[simp] theorem ofLine_toOrderLine (n : ℕ) (o : OrderLine) :
    (ofLine n o).toOrderLine = o := rfl

@[simp] theorem ofLine_line (n : ℕ) (o : OrderLine) : (ofLine n o).line = some n := rfl

@[simp] theorem ofLine_leaves (n : ℕ) (o : OrderLine) : (ofLine n o).leaves = o.qty.toNat :=
  rfl

theorem empty_iff (e : OrderEntry) : e.empty = true ↔ e.leaves = 0 := by
  simp only [empty, leaves, beq_iff_eq]
  exact ⟨fun h => by simp [h], fun h => UInt32.toNat_inj.mp (by simpa using h)⟩

/-- `LeavesQty -= qty` does not wrap when at most `LeavesQty` is crossed. -/
theorem crossQty_leaves {e : OrderEntry} {q : Quantity} (h : q.toNat ≤ e.leaves) :
    (e.crossQty q).leaves = e.leaves - q.toNat :=
  UInt32.toNat_sub_of_le _ _ (UInt32.le_iff_toNat_le.mpr h)

/-- Under `NORMAL_RULE_APPLY` an earlier sequence number is a larger key. -/
theorem getKey_lt_of_sequence_lt {e e' : OrderEntry}
    (h : e.sequence < e'.sequence) : e'.getKey true < e.getKey true := by
  have hn : ∀ x : OrderEntry, x.normSequence.toNat = 2 ^ 32 - 1 - x.sequence.toNat := by
    intro x
    rw [x.norm_eq]
    simp
  have h1 := e.sequence.toNat_lt
  have h2 := e'.sequence.toNat_lt
  have h3 := e'.leavesQty.toNat_lt
  rw [UInt32.lt_iff_toNat_lt] at h
  simp only [getKey, keyBits, hn, if_true]
  omega

end OrderEntry

/-! ### `Account` -/

/-- What a party has bought and sold.  The `double` volumes are exact rationals. -/
structure Account where
  longQty : ℕ := 0
  longVolume : ℚ := 0
  shortQty : ℕ := 0
  shortVolume : ℚ := 0
  deriving Inhabited

namespace Account

/-- `Account::update<Side::BUY>`; `qty*price` is a 32-bit product. -/
def updateBUY (a : Account) (qty : Quantity) (price : Price) : Account :=
  { a with
    longQty := a.longQty + qty.toNat
    longVolume := a.longVolume + ((qty * price).toNat : ℚ) / 1000 }

/-- `Account::update<Side::SELL>`, with the same product. -/
def updateSELL (a : Account) (qty : Quantity) (price : Price) : Account :=
  { a with
    shortQty := a.shortQty + qty.toNat
    shortVolume := a.shortVolume + ((qty * price).toNat : ℚ) / 1000 }

/-- `Account::update<s>`. -/
def update : Side → Account → Quantity → Price → Account
  | .BUY => updateBUY
  | .SELL => updateSELL

/-- The quantity an account holds on one side. -/
def sideQty : Side → Account → ℕ
  | .BUY => longQty
  | .SELL => shortQty

@[simp] theorem sideQty_default (s : Side) : sideQty s {} = 0 := by cases s <;> rfl

@[simp] theorem sideQty_update_self (s : Side) (a : Account) (q : Quantity) (p : Price) :
    sideQty s (update s a q p) = sideQty s a + q.toNat := by cases s <;> rfl

theorem sideQty_update_of_ne {s s' : Side} (h : s ≠ s') (a : Account) (q : Quantity)
    (p : Price) : sideQty s (update s' a q p) = sideQty s a := by
  cases s <;> cases s' <;> first | rfl | exact absurd rfl h

end Account

/-- `Accounts_t`, the `unordered_map` from party to account. -/
abbrev Accounts := AList fun _ : String => Account

/-! ### `ReportEntry` -/

/-- A report of one fill, with the two orders as they were then. -/
structure ReportEntry where
  id1 : String
  id2 : String
  mCrossQty : Quantity
  mCrossPrice : Price
  mOrderPtr1 : ℕ
  mOrderPtr2 : ℕ
  /-- Ghost: `*mOrderPtr1` when the report was written. -/
  entry1 : OrderEntry
  /-- Ghost: `*mOrderPtr2` when the report was written. -/
  entry2 : OrderEntry

namespace ReportEntry

/-- The report concerns the order of line `n`, as incoming or as resting order. -/
def names (r : ReportEntry) (n : ℕ) : Bool :=
  r.entry1.line = some n || r.entry2.line = some n

/-- The order on side `s` of the reported trade. -/
def onSide (r : ReportEntry) (s : Side) : OrderEntry :=
  if r.entry1.side = s then r.entry1 else r.entry2

end ReportEntry

/-! ### `OrderGroup` -/

/-- **A price level**: the waiting orders and the two running totals. -/
structure OrderGroup where
  mOrders : List ℕ := []
  mTotalQty : ℕ := 0
  mLeavesQty : ℕ := 0
  deriving DecidableEq, Inhabited

namespace OrderGroup

/-- `OrderGroup::addOrder(pOrder)`, `e` being `*pOrder`. -/
def addOrder (pOrder : ℕ) (e : OrderEntry) (g : OrderGroup) : OrderGroup where
  mOrders := g.mOrders ++ [pOrder]
  mTotalQty := g.mTotalQty + e.getTotalQty.toNat
  mLeavesQty := g.mLeavesQty + e.getCurrentQty.toNat

/-- `OrderGroup::empty()` looks at the running total, not at the vector. -/
def empty (g : OrderGroup) : Bool := g.mLeavesQty == 0

def getTotalQty (g : OrderGroup) : ℕ := g.mTotalQty

/-- `consolidateGroupQty(sumSofar)`: the new group and the new `sumSofar`. -/
def consolidateGroupQty (g : OrderGroup) (sumSofar : ℕ) : OrderGroup × ℕ :=
  let mTotalQty := g.mTotalQty + sumSofar
  ({ g with mTotalQty := mTotalQty }, mTotalQty)

/-- `restoreGroupQty(sumSofar)`, which leaves `sumSofar` alone. -/
def restoreGroupQty (g : OrderGroup) : OrderGroup :=
  { g with mLeavesQty := g.mTotalQty }

end OrderGroup

end LinuxProgram.PrestoLabs
