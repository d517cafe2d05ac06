import LinuxProgram.ProcessOrder.LoadFile

/-!
# The messages of an order stream

The wire format of `ProcessOrder.h` as it is documented there: a packed header, and a
body of one of three kinds.

* `OrderEntry` — 36 bytes, the name of a firm of at most 256 bytes, and a terminator.
* `OrderAck` — 22 bytes with the terminator.
* `OrderFill` — 17 bytes, as many groups as `no_of_contras` says, and a terminator.
* `Message.fields` — the bytes of a message, member by member.
* `Message.At` — where a message stands in a mapping, with what is read there.
-/

namespace LinuxProgram.ProcessOrder

open Lib.ByteLayout

/-- **`Header_t`**, without the type and the length, which follow from the body. -/
structure Header where
  Header_marker : UInt16
  Header_sequence_id : UInt64
  Header_timestamp : UInt64
  Header_msg_direction : UInt8

/-- **The body of an order entry**, `OrderEntryMsg_t` behind its header.  How long the name of the
firm is does not stand in it; a reader has to infer that from the length in the header. -/
structure OrderEntry where
  price : UInt64
  qty : UInt32
  instrument : Vector UInt8 10
  side : UInt8
  client_id : UInt64
  time_in_force : UInt8
  trader_tag : Vector UInt8 3
  firm_id : UInt8
  firm : Bytes
  termination_string : Vector UInt8 8
  firm_le : firm.length ≤ 256

/-- **The body of an acknowledgement**, `OrderAckMsg_t` behind its header.  It names the order by
both of its ids. -/
structure OrderAck where
  order_id : UInt32
  client_id : UInt64
  order_status : UInt8
  reject_code : UInt8
  termination_string : Vector UInt8 8

/-- `rptgrp_t`, the part that a counterparty has in a fill. -/
structure RptGrp where
  firm_id : UInt8
  trader_tag : Vector UInt8 3
  qty : UInt32

/-- **The body of a fill**, `OrderFillMsg_t` behind its header.  `no_of_contras` is one byte, and
the number of the groups. -/
structure OrderFill where
  order_id : UInt32
  fill_price : UInt64
  fill_qty : UInt32
  groups : List RptGrp
  termination_string : Vector UInt8 8
  length_lt : groups.length < 256

/-- **A message** of one of the three types that `LoadFile` knows. -/
inductive Message
  | entry (h : Header) (b : OrderEntry)
  | ack (h : Header) (b : OrderAck)
  | fill (h : Header) (b : OrderFill)

namespace OrderEntry

@[simp] def fields (b : OrderEntry) : List Bytes :=
  [le 8 b.price.toNat, le 4 b.qty.toNat, b.instrument.toList, le 1 b.side.toNat,
    le 8 b.client_id.toNat, le 1 b.time_in_force.toNat, b.trader_tag.toList, le 1 b.firm_id.toNat,
    b.firm, b.termination_string.toList]

theorem length_fields (b : OrderEntry) : b.fields.flatten.length = 36 + b.firm.length + 8 := by
  simp
  omega

end OrderEntry

namespace OrderAck

@[simp] def fields (b : OrderAck) : List Bytes :=
  [le 4 b.order_id.toNat, le 8 b.client_id.toNat, le 1 b.order_status.toNat,
    le 1 b.reject_code.toNat, b.termination_string.toList]

theorem length_fields (b : OrderAck) : b.fields.flatten.length = 22 := by
  simp

end OrderAck

def RptGrp.bytes (g : RptGrp) : Bytes :=
  le 1 g.firm_id.toNat ++ g.trader_tag.toList ++ le 4 g.qty.toNat

theorem RptGrp.length_bytes (g : RptGrp) : g.bytes.length = 8 := by
  simp [bytes]

theorem length_groups (groups : List RptGrp) :
    (groups.flatMap RptGrp.bytes).length = 8 * groups.length := by
  induction groups with
  | nil => rfl
  | cons g groups ih =>
      rw [List.flatMap_cons, List.length_append, ih, g.length_bytes, List.length_cons]
      omega

namespace OrderFill

@[simp] def fields (b : OrderFill) : List Bytes :=
  [le 4 b.order_id.toNat, le 8 b.fill_price.toNat, le 4 b.fill_qty.toNat, le 1 b.groups.length,
    b.groups.flatMap RptGrp.bytes, b.termination_string.toList]

theorem length_fields (b : OrderFill) :
    b.fields.flatten.length = 17 + 8 * b.groups.length + 8 := by
  simp only [fields, List.flatten_cons, List.flatten_nil, List.length_append, length_le,
    length_groups, Vector.length_toList, List.length_nil]
  omega

end OrderFill

/-- The header in front of a body. -/
@[simp] def Header.fields (h : Header) (msgType length : ℕ) : List Bytes :=
  [le 2 h.Header_marker.toNat, le 1 msgType, le 8 h.Header_sequence_id.toNat,
    le 8 h.Header_timestamp.toNat, le 1 h.Header_msg_direction.toNat, le 2 length]

namespace Message

@[simp] def header : Message → Header
  | .entry h _ | .ack h _ | .fill h _ => h

/-- `Header_msg_type` -/
def msgType : Message → ℕ
  | .entry _ _ => 1
  | .ack _ _ => 2
  | .fill _ _ => 3

@[simp] def body : Message → List Bytes
  | .entry _ b => b.fields
  | .ack _ b => b.fields
  | .fill _ b => b.fields

/-- `Header_msg_len` -/
def msgLen (m : Message) : ℕ := m.body.flatten.length

/-- **A message, member by member**, so that a member is found behind the lengths of those in front
of it. -/
@[simp] def fields (m : Message) : List Bytes := m.header.fields m.msgType m.msgLen ++ m.body

/-- The bytes of a message. -/
def bytes (m : Message) : Bytes := m.fields.flatten

theorem msgLen_lt (m : Message) : m.msgLen < 256 ^ 2 := by
  rw [msgLen]
  cases m with
  | entry h b =>
      have := b.firm_le
      rw [body, b.length_fields]
      omega
  | ack h b =>
      rw [body, b.length_fields]
      decide
  | fill h b =>
      have := b.length_lt
      rw [body, b.length_fields]
      omega

theorem length_bytes (m : Message) : m.bytes.length = sizeofHeader + m.msgLen := by
  rw [bytes, fields, List.flatten_append, List.length_append, msgLen]
  simp [sizeofHeader]

def entry? : Message → Option OrderEntry
  | .entry _ b => some b
  | _ => none

def ack? : Message → Option OrderAck
  | .ack _ b => some b
  | _ => none

def fill? : Message → Option OrderFill
  | .fill _ b => some b
  | _ => none

end Message

/-- The order entries of a stream. -/
def entries (ms : List Message) : List OrderEntry := ms.filterMap Message.entry?

/-- The acknowledgements of a stream. -/
def acks (ms : List Message) : List OrderAck := ms.filterMap Message.ack?

/-- The fills of a stream. -/
def fills (ms : List Message) : List OrderFill := ms.filterMap Message.fill?

/-- **A stream of messages**, one directly behind the other. -/
def encode (ms : List Message) : Bytes := ms.flatMap Message.bytes

/-! ### Messages in a mapping -/

/-- **A message stands at `p`** in a mapping, whatever is in front of it and behind it. -/
structure Message.At (f : Mapping) (p : ℕ) (m : Message) : Prop where
  exists_eq : ∃ A C, f = A ++ (m.fields.flatten ++ C) ∧ A.length = p

namespace Message.At

variable {f : Mapping} {p : ℕ} {m : Message} {k n x offset : ℕ}

/-- A number in a message. -/
theorem num_eq (h : m.At f p) (k : ℕ) (hk : m.fields[k]? = some (le n x)) (hx : x < 256 ^ n)
    (hoffset : (m.fields.take k).flatten.length = offset) : num f (p + offset) n = x := by
  obtain ⟨A, C, hf, rfl⟩ := h.exists_eq
  rw [← hoffset]
  exact num_field hf hk hx

/-- An array in a message. -/
theorem slice_eq (h : m.At f p) (k : ℕ) {field : Bytes} (hk : m.fields[k]? = some field)
    (hoffset : (m.fields.take k).flatten.length = offset) :
    slice f (p + offset) field.length = field := by
  obtain ⟨A, C, hf, rfl⟩ := h.exists_eq
  rw [← hoffset]
  exact slice_field hf hk

/-- The length in the header. -/
theorem headerMsgLen_eq (h : m.At f p) : headerMsgLen f p = m.msgLen :=
  h.num_eq 5 rfl m.msgLen_lt (by simp)

/-- The type in the header. -/
theorem msgType_eq (h : m.At f p) : num f (p + 2) 1 = m.msgType := by
  refine h.num_eq 1 rfl ?_ (by simp)
  cases m <;> norm_num [msgType]

/-- `CalcAddr` finds the beginning of the next message. -/
theorem calcAddr_eq (h : m.At f p) : (calcAddr f p).val = p + m.bytes.length := by
  have hval : (calcAddr f p).val = p + sizeofHeader + headerMsgLen f p := rfl
  rw [hval, h.headerMsgLen_eq, m.length_bytes, Nat.add_assoc]

end Message.At

end LinuxProgram.ProcessOrder
