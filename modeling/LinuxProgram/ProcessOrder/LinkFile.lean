import LinuxProgram.Lib.StdSort
import LinuxProgram.Lib.Tally
import LinuxProgram.ProcessOrder.LoadFile

/-!
# LinkFile and ParseFile

`ProcessOrder::LinkFile` joins the order entries of a stream with their
acknowledgements, and `ProcessOrder::ParseFile` its fills with the order entries.

* `ActiveTrader`, `Liquidity` — a trader with a quantity; `addQty` is what both vectors
  do with one.
* `linkFile` — the map from client ids to order entries, and the two rankings.
* `parseFile` — the quantity traded of each instrument.  Its result is `none` if a null
  pointer is dereferenced.  Like `LoadFile` it has no `return` at its end; `main` in
  `ShowResult` has the builds in which control does not come back from it.

The names that the objects point to stay where they are, and are copied here.
`INTEGRITY_VERIFY` and `DEBUGV` are not defined.
-/

namespace LinuxProgram.ProcessOrder

open Lib

/-! ### C strings -/

/-- The characters of a C string, up to the zero that ends it or to the end of its array. -/
def cString (s : Bytes) : Bytes := s.takeWhile (· ≠ 0)

/-- `strncmp(s, t, n) == 0`, which looks at `n` characters at most and stops at a zero. -/
def strncmpEq (s t : Bytes) (n : ℕ) : Bool := cString (s.take n) = cString (t.take n)

/-! ### Rankings -/

/-- A trader, and the quantity of some of its orders. -/
structure TraderQty where
  TraderName : Bytes
  Qty : UInt32
  deriving DecidableEq, Repr

/-- `Qty` is `AcceptQty`. -/
abbrev ActiveTrader := TraderQty

/-- `Qty` is `GFDQty`. -/
abbrev Liquidity := TraderQty

/-- `operator==` of both, which compares the three characters of a tag. -/
def TraderQty.eq (x y : TraderQty) : Bool := strncmpEq x.TraderName y.TraderName 3

/-- **A trader is looked for**, and its quantity is added there, or behind the others. -/
def addQty (x : TraderQty) : List TraderQty → List TraderQty
  | [] => [x]
  | y :: ys => if y.eq x then { y with Qty := y.Qty + x.Qty } :: ys else y :: addQty x ys

/-- The comparator of both calls of `sort`: the larger quantity comes first, and traders with the
same quantity in any order. -/
def byQty (L R : TraderQty) : Bool := L.Qty > R.Qty

/-! ### LinkFile -/

/-- `ID2Entry_t`, with pointers that may be null. -/
abbrev ID2Entry := SortedMap (@less UInt64 _ _) (Option OrderEntryMsgClass)

/-- **What `LinkFile` fills in**: the map by which `ParseFile` finds an order entry, and the two
rankings that `ShowResult` prints the first of. -/
structure Linked where
  ClientID2OrderEntry : ID2Entry
  ActiveVector : List ActiveTrader
  LiquidityVector : List Liquidity

variable (f : Mapping)

/-- **The body of the loop** over the order entries.  The first acknowledgement with the client id
of the entry decides whether it counts as accepted. -/
def linkEntry (vAckMsg : List OrderAckMsgClass) (s : Linked) (iter : OrderEntryMsgClass) : Linked :=
  let IterAck := vAckMsg.find? fun a => a.isMatchClientID f (iter.GetClientID f)
  let trader : TraderQty := ⟨iter.GetTraderTag, iter.GetQty f⟩
  -- the map is keyed by the client id of the entry
  { ClientID2OrderEntry :=
      s.ClientID2OrderEntry.upsert (iter.GetClientID f) none fun _ => some iter
    ActiveVector :=
      if IterAck.any (·.Accept f) then addQty trader s.ActiveVector else s.ActiveVector
    LiquidityVector :=
      if iter.isGFD f then addQty trader s.LiquidityVector else s.LiquidityVector }

/-- The loop over the order entries. -/
def linkLoop (s : Loaded) : Linked :=
  s.vEntryMsg.foldl (linkEntry f s.vAckMsg) ⟨.empty, [], []⟩

/-- **`LinkFile`**, the loop and the two calls of `sort`, each with a routine of its own. -/
def linkFile (sortActive : StdSort ActiveTrader) (sortLiquidity : StdSort Liquidity)
    (s : Loaded) : Linked :=
  let linked := linkLoop f s
  { linked with
    ActiveVector := sortActive.run byQty linked.ActiveVector
    LiquidityVector := sortLiquidity.run byQty linked.LiquidityVector }

/-! ### ParseFile -/

/-- `TradesPerInstrument_t` -/
abbrev TradesPerInstrument := SortedMap (@less Bytes _ _) UInt64

/-- **What `ParseFile` works on**: the map of the order entries, into which a lookup inserts what it
does not find, and the quantities. -/
structure Parsed where
  ClientID2OrderEntry : ID2Entry
  TradesMap : TradesPerInstrument

/-- `order_id == clientid??? or get the relation with AckMsg`, as the source asks: it takes the one
id for the other. -/
def OrderID2ClientID (order_id : UInt32) : UInt64 := order_id.toUInt64

/-- **The body of the loop** over the fills: the order entry of the fill is looked up, and the
quantity added to that of its instrument. -/
def parseFill (s : Parsed) (iter : OrderFillMsgClass) : Option Parsed :=
  let ClientID := OrderID2ClientID (iter.GetOrderID f)
  -- `operator[]` puts a null pointer where there is none
  let ClientID2OrderEntry := s.ClientID2OrderEntry.upsert ClientID none id
  match (ClientID2OrderEntry.find? ClientID).join with
  -- `spEntry->` of a null pointer
  | none => none
  | some spEntry =>
      let Instrument := cString spEntry.GetInstrument
      let FillQty := (iter.GetFillQty f).toUInt64
      let TradesMap := match s.TradesMap.find? Instrument with
        | some _ => s.TradesMap.upsert Instrument 0 (· + FillQty)
        | none => s.TradesMap.upsert Instrument 0 fun _ => FillQty
      some ⟨ClientID2OrderEntry, TradesMap⟩

/-- **`ParseFile`**, what it leaves in the members when its loop has ended.  It too runs off its
end. -/
def parseFile (linked : Linked) (s : Loaded) : Option Parsed :=
  s.vFillMsg.foldlM (parseFill f) ⟨linked.ClientID2OrderEntry, .empty⟩

variable (sortActive : StdSort ActiveTrader) (sortLiquidity : StdSort Liquidity)

/-- **The three passes** of `main`, in a build where control comes back from each of them. -/
def processFile : Option Parsed :=
  let loaded := (loadFile f).val
  parseFile f (linkFile f sortActive sortLiquidity loaded) loaded

end LinuxProgram.ProcessOrder
