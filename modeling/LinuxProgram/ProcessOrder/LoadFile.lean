import LinuxProgram.Lib.ByteLayout

/-!
# LoadFile

`ProcessOrder.h` and `ProcessOrder::LoadFile`: a mapped file is gone through message
by message, and each message becomes an object that points into the mapping.

* `Logged` — a computation with the accesses to memory it makes.  A pointer into the
  mapping is its offset; behind the end of the mapping the model reads zeros, and what
  it does after such an access says nothing.
* `OrderEntryMsgClass`, `OrderAckMsgClass`, `OrderFillMsgClass` — the objects, their
  constructors and their accessors.  `Log` prints nothing, but its arguments are read.
* `loadFile` — the loop, with what it leaves in the members of `ProcessOrder`.
* `loadReturn` — what the caller gets: -1 at an unknown type.  Behind the loop there is no
  `return`, and `main` in `ShowResult` says what becomes of that.

The offsets of members are those of the packed structs.  The static counters of the
objects, which are only printed, are left out.
-/

namespace LinuxProgram.ProcessOrder

open Lib.ByteLayout

abbrev Bytes := List UInt8

/-- **An access to memory**: a read of the mapping, or a write to the front of a buffer. -/
inductive Access
  | read (offset length : ℕ)
  | write (length capacity : ℕ)
  deriving DecidableEq, Repr

/-- **A computation with its accesses**: the result, as it is if all of them are inside, and the
places of the mapping and of the buffers that were read and written on the way. -/
structure Logged (α : Type) where
  val : α
  accesses : List Access

instance : Monad Logged where
  pure x := ⟨x, []⟩
  bind x f := ⟨(f x.val).val, x.accesses ++ (f x.val).accesses⟩

/-- The mapped file. -/
abbrev Mapping := Bytes

namespace Mapping

/-- A member of a struct is read. -/
def read (f : Mapping) (offset length : ℕ) : Logged ℕ :=
  ⟨num f offset length, [.read offset length]⟩

/-- Members are read and not used. -/
def touch (members : List (ℕ × ℕ)) : Logged Unit :=
  ⟨(), members.map fun (offset, length) => .read offset length⟩

/-- `memset` of a buffer to zero, and `memcpy` of `length` bytes to its front. -/
def memcpy (f : Mapping) (capacity offset length : ℕ) : Logged Bytes where
  val := slice f offset (min length capacity) ++ List.replicate (capacity - length) 0
  accesses := [.read offset length, .write length capacity]

end Mapping

variable (f : Mapping)

/-! ### Headers -/

/-- `sizeof(Header_t)` -/
def sizeofHeader : ℕ := 22

/-- `Header_msg_len` of the header at `p`. -/
def headerMsgLen (p : ℕ) : ℕ := num f (p + 20) 2

/-- `CalcAddr(p).GetEnd()` -/
def calcAddr (p : ℕ) : Logged ℕ := do
  let msgLen ← f.read (p + 20) 2
  return p + sizeofHeader + msgLen

/-- What all `Print` functions read of a header. -/
def printHeader (p : ℕ) : List (ℕ × ℕ) := [(p + 3, 8), (p + 11, 8)]

/-! ### Order entries -/

/-- **`OrderEntryMsgClass`.** -/
structure OrderEntryMsgClass where
  pEntryMsg : ℕ
  MsgEnd : ℕ
  TraderTag : Bytes
  Instrument : Bytes
  Firm : Bytes
  deriving DecidableEq, Repr

namespace OrderEntryMsgClass

/-- The length of the firm name, as the `size_t` that `memcpy` gets. -/
def firmLength (p MsgEnd : ℕ) : ℕ := (((MsgEnd : ℤ) - 8 - (p + 58 : ℕ)) % 2 ^ 64).toNat

def new (p : ℕ) : Logged OrderEntryMsgClass := do
  let MsgEnd ← calcAddr f p
  let TraderTag ← f.memcpy 4 (p + 54) 3
  let Instrument ← f.memcpy 11 (p + 34) 10
  -- the length comes from the header, and the buffer has 257 bytes
  let Firm ← f.memcpy 257 (p + 58) (firmLength p MsgEnd)
  Mapping.touch (printHeader p ++
    [(p + 22, 8), (p + 30, 4), (p + 45, 8), (p + 53, 1), (p + 44, 1)])
  return { pEntryMsg := p, MsgEnd, TraderTag, Instrument, Firm }

variable (e : OrderEntryMsgClass)

def GetQty : UInt32 := .ofNat (num f (e.pEntryMsg + 30) 4)

def isGFD : Bool := num f (e.pEntryMsg + 53) 1 = 2

def GetTraderTag : Bytes := e.TraderTag

def GetInstrument : Bytes := e.Instrument

def GetClientID : UInt64 := .ofNat (num f (e.pEntryMsg + 45) 8)

end OrderEntryMsgClass

/-! ### Acknowledgements -/

/-- **`OrderAckMsgClass`.** -/
structure OrderAckMsgClass where
  pAckMsg : ℕ
  MsgEnd : ℕ
  deriving DecidableEq, Repr

namespace OrderAckMsgClass

def new (p : ℕ) : Logged OrderAckMsgClass := do
  let MsgEnd ← calcAddr f p
  Mapping.touch (printHeader p ++ [(p + 22, 4), (p + 26, 8), (p + 34, 1)])
  return { pAckMsg := p, MsgEnd }

variable (a : OrderAckMsgClass)

def Accept : Bool := num f (a.pAckMsg + 34) 1 = 1

def GetOrderID : UInt32 := .ofNat (num f (a.pAckMsg + 22) 4)

def GetClientID : UInt64 := .ofNat (num f (a.pAckMsg + 26) 8)

def isMatchClientID (client_id : UInt64) : Bool := a.GetClientID f = client_id

end OrderAckMsgClass

/-! ### Fills -/

/-- `_group_t` -/
structure Group where
  firm_id : UInt8
  trader_tag : Bytes
  qty : UInt32
  deriving DecidableEq, Repr

/-- **`OrderFillMsgClass`.** -/
structure OrderFillMsgClass where
  pFillMsg : ℕ
  MsgEnd : ℕ
  ContrasRptGrp : List Group
  deriving DecidableEq, Repr

namespace OrderFillMsgClass

/-- A group, read through `pRptGroup`. -/
def readGroup (pRptGroup : ℕ) : Logged Group := do
  let firm_id ← f.read pRptGroup 1
  let qty ← f.read (pRptGroup + 4) 4
  let trader_tag ← f.memcpy 4 (pRptGroup + 1) 3
  return { firm_id := .ofNat firm_id, trader_tag, qty := .ofNat qty }

/-- The loop over the groups. -/
def readGroups (pRptGroup : ℕ) : ℕ → Logged (List Group)
  | 0 => return []
  | n + 1 => do
      let group ← readGroup f pRptGroup
      let groups ← readGroups (pRptGroup + 8) n
      return group :: groups

def new (p : ℕ) : Logged OrderFillMsgClass := do
  let MsgEnd ← calcAddr f p
  let no_of_contras ← f.read (p + 38) 1
  let ContrasRptGrp ← readGroups f (p + 39) no_of_contras
  Mapping.touch (printHeader p ++ [(p + 22, 4), (p + 26, 8), (p + 34, 4)])
  return { pFillMsg := p, MsgEnd, ContrasRptGrp }

variable (m : OrderFillMsgClass)

def GetOrderID : UInt32 := .ofNat (num f (m.pFillMsg + 22) 4)

def GetFillQty : UInt32 := .ofNat (num f (m.pFillMsg + 34) 4)

end OrderFillMsgClass

/-! ### The loop -/

/-- **What `LoadFile` fills in**: the three vectors of objects, and the counter of all messages. -/
structure Loaded where
  vEntryMsg : List OrderEntryMsgClass
  vAckMsg : List OrderAckMsgClass
  vFillMsg : List OrderFillMsgClass
  TotalCnt : UInt32
  deriving DecidableEq, Repr

/-- The `switch`: nothing, where it does not know the type. -/
def loadSwitch (p : ℕ) (s : Loaded) : ℕ → Logged (Option Loaded)
  | 1 => do
      let e ← OrderEntryMsgClass.new f p
      return some { s with vEntryMsg := s.vEntryMsg ++ [e] }
  | 2 => do
      let a ← OrderAckMsgClass.new f p
      return some { s with vAckMsg := s.vAckMsg ++ [a] }
  | 3 => do
      let m ← OrderFillMsgClass.new f p
      return some { s with vFillMsg := s.vFillMsg ++ [m] }
  | _ => return none

/-- `Header_msg_type` is read, and the message is loaded. -/
def loadMessage (p : ℕ) (s : Loaded) : Logged (Option Loaded) := do
  let msgType ← f.read (p + 2) 1
  loadSwitch f p s msgType

/-- The loop of `LoadFile`.  It goes on behind a message it knows. -/
def loadLoop (p : ℕ) (s : Loaded) : Logged Loaded :=
  if p < f.length then
    let message := loadMessage f p s
    match message.val with
    -- an unknown type ends the loop where it stands
    | none => ⟨s, message.accesses⟩
    | some s' =>
        let rest := loadLoop (p + sizeofHeader + headerMsgLen f p)
          { s' with TotalCnt := s'.TotalCnt + 1 }
        ⟨rest.val, message.accesses ++ (calcAddr f p).accesses ++ rest.accesses⟩
  else ⟨s, []⟩
termination_by f.length - p
decreasing_by
  rw [sizeofHeader]
  omega

/-- **`LoadFile`**, what it leaves in the members when its loop has ended.  Behind the loop it runs
off the end of a function that has a result type, which C++ leaves undefined whether or not anybody
looks at the result.  What is said of the members after that is about builds in which control comes
back to `main`, as it does with the `g++ 4.8.4` of the Readme and the options of the Makefile. -/
def loadFile : Logged Loaded := loadLoop f 0 ⟨[], [], [], 0⟩

/-- **What `LoadFile` returns**, if its loop stands at `p`: -1 at an unknown type, and nothing where
it runs off its end. -/
def loadReturn (p : ℕ) : Option ℤ :=
  if p < f.length then
    match (loadMessage f p ⟨[], [], [], 0⟩).val with
    | none => some (-1)
    | some _ => loadReturn (p + sizeofHeader + headerMsgLen f p)
  else none
termination_by f.length - p
decreasing_by
  rw [sizeofHeader]
  omega

end LinuxProgram.ProcessOrder
