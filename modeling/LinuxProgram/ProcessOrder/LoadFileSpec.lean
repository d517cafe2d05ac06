import LinuxProgram.ProcessOrder.Message

/-!
# LoadFile decodes a stream of messages

* `Entry`, `Ack`, `Fill` — what the accessors and buffers of an object say when it was
  made from a message of its kind.
* `new_entry`, `new_ack`, `new_fill` — the constructors make such objects.
* `loadLoop_spec` — the loop, from the start of any message on.
* `loadFile_decodes` — the three vectors have the messages of the three types in order.
-/

namespace LinuxProgram.ProcessOrder

open Lib.ByteLayout

variable {f : Mapping} {p : ℕ} {h : Header}

/-! ### Numbers and buffers -/

theorem UInt8.lt_pow (x : UInt8) : x.toNat < 256 ^ 1 := x.toNat_lt

theorem UInt32.lt_pow (x : UInt32) : x.toNat < 256 ^ 4 := x.toNat_lt

theorem UInt64.lt_pow (x : UInt64) : x.toNat < 256 ^ 8 := x.toNat_lt

/-- A buffer into which less than its capacity is copied. -/
theorem memcpy_val (capacity : ℕ) {offset length : ℕ} {field : Bytes} (hlength : length ≤ capacity)
    (hfield : slice f offset length = field) :
    (f.memcpy capacity offset length).val = field ++ List.replicate (capacity - length) 0 := by
  rw [Mapping.memcpy, Nat.min_eq_left hlength, hfield]

/-! ### Objects -/

/-- **An object made from an order entry** has its members, each string with a zero behind it, and
the name of the firm with zeros up to the end of the buffer. -/
structure Entry (f : Mapping) (b : OrderEntry) (e : OrderEntryMsgClass) : Prop where
  qty : e.GetQty f = b.qty
  gfd : e.isGFD f = decide (b.time_in_force = 2)
  clientID : e.GetClientID f = b.client_id
  traderTag : e.GetTraderTag = b.trader_tag.toList ++ [0]
  instrument : e.GetInstrument = b.instrument.toList ++ [0]
  firm : e.Firm = b.firm ++ List.replicate (257 - b.firm.length) 0

/-- **An object made from an acknowledgement** has both ids, and accepts if the status is `GOOD`. -/
structure Ack (f : Mapping) (b : OrderAck) (a : OrderAckMsgClass) : Prop where
  orderID : a.GetOrderID f = b.order_id
  clientID : a.GetClientID f = b.client_id
  accept : a.Accept f = decide (b.order_status = 1)

/-- A group as an object has it. -/
def RptGrp.group (g : RptGrp) : Group where
  firm_id := g.firm_id
  trader_tag := g.trader_tag.toList ++ [0]
  qty := g.qty

/-- **An object made from a fill** has the order id, the quantity and all groups, in order. -/
structure Fill (f : Mapping) (b : OrderFill) (m : OrderFillMsgClass) : Prop where
  orderID : m.GetOrderID f = b.order_id
  fillQty : m.GetFillQty f = b.fill_qty
  groups : m.ContrasRptGrp = b.groups.map RptGrp.group

/-- A flag that is a byte. -/
theorem decide_toNat_eq (x y : UInt8) : decide (x.toNat = y.toNat) = decide (x = y) :=
  decide_eq_decide.mpr UInt8.toNat_inj

/-- The length that is copied to the buffer for the firm. -/
theorem firmLength_eq {n : ℕ} (hn : n ≤ 256) :
    OrderEntryMsgClass.firmLength p (p + (sizeofHeader + (36 + n + 8))) = n := by
  have hint : ((p + (sizeofHeader + (36 + n + 8)) : ℕ) : ℤ) - 8 - (p + 58 : ℕ) = n := by
    rw [sizeofHeader]
    push_cast
    ring
  rw [OrderEntryMsgClass.firmLength, hint]
  omega

/-- **The constructor of order entries** makes such an object.  It infers the length of the name
from the length in the header, and gets the one of the message. -/
theorem new_entry {b : OrderEntry} (hat : (Message.entry h b).At f p) :
    Entry f b (OrderEntryMsgClass.new f p).val where
  qty := by
    refine Eq.trans (congrArg UInt32.ofNat ?_) UInt32.ofNat_toNat
    exact hat.num_eq 7 rfl (UInt32.lt_pow _) (by simp)
  gfd := by
    have htime : num f (p + 53) 1 = b.time_in_force.toNat :=
      hat.num_eq 11 rfl (UInt8.lt_pow _) (by simp)
    exact (congrArg (fun x => decide (x = 2)) htime).trans (decide_toNat_eq _ 2)
  clientID := by
    refine Eq.trans (congrArg UInt64.ofNat ?_) UInt64.ofNat_toNat
    exact hat.num_eq 10 rfl (UInt64.lt_pow _) (by simp)
  traderTag := by
    have htag : slice f (p + 54) b.trader_tag.toList.length = b.trader_tag.toList :=
      hat.slice_eq 12 rfl (by simp)
    rw [Vector.length_toList] at htag
    exact memcpy_val _ (by decide) htag
  instrument := by
    have hname : slice f (p + 34) b.instrument.toList.length = b.instrument.toList :=
      hat.slice_eq 8 rfl (by simp)
    rw [Vector.length_toList] at hname
    exact memcpy_val _ (by decide) hname
  firm := by
    have hname : slice f (p + 58) b.firm.length = b.firm := hat.slice_eq 14 rfl (by simp)
    have hle := b.firm_le
    have hend : (calcAddr f p).val = p + (sizeofHeader + (36 + b.firm.length + 8)) := by
      rw [hat.calcAddr_eq, Message.length_bytes, Message.msgLen, Message.body, b.length_fields]
    have hlength : OrderEntryMsgClass.firmLength p (calcAddr f p).val = b.firm.length := by
      rw [hend, firmLength_eq hle]
    have hval := memcpy_val 257 (hle.trans (by decide)) hname
    rw [← hval]
    exact congrArg (fun n => (f.memcpy 257 (p + 58) n).val) hlength

/-- **The constructor of acknowledgements** makes such an object. -/
theorem new_ack {b : OrderAck} (hat : (Message.ack h b).At f p) :
    Ack f b (OrderAckMsgClass.new f p).val where
  orderID := by
    refine Eq.trans (congrArg UInt32.ofNat ?_) UInt32.ofNat_toNat
    exact hat.num_eq 6 rfl (UInt32.lt_pow _) (by simp)
  clientID := by
    refine Eq.trans (congrArg UInt64.ofNat ?_) UInt64.ofNat_toNat
    exact hat.num_eq 7 rfl (UInt64.lt_pow _) (by simp)
  accept := by
    have hstatus : num f (p + 34) 1 = b.order_status.toNat :=
      hat.num_eq 8 rfl (UInt8.lt_pow _) (by simp)
    exact (congrArg (fun x => decide (x = 1)) hstatus).trans (decide_toNat_eq _ 1)

/-! ### Groups -/

/-- A group is read. -/
theorem readGroup_eq {g : RptGrp} {A C : Bytes} (hf : f = A ++ (g.bytes ++ C)) :
    (OrderFillMsgClass.readGroup f A.length).val = g.group := by
  have hfields : f = A ++ ([le 1 g.firm_id.toNat, g.trader_tag.toList, le 4 g.qty.toNat].flatten
      ++ C) := by
    rw [hf, RptGrp.bytes]
    simp only [List.flatten_cons, List.flatten_nil, List.append_assoc, List.nil_append]
  have hfirm : num f A.length 1 = g.firm_id.toNat :=
    num_field hfields (k := 0) rfl (UInt8.lt_pow _)
  have htag : slice f (A.length + 1) g.trader_tag.toList.length = g.trader_tag.toList :=
    slice_field hfields (k := 1) rfl
  have hqty : num f (A.length + 4) 4 = g.qty.toNat := by
    have := num_field hfields (k := 2) (x := g.qty.toNat) rfl (UInt32.lt_pow _)
    simpa using this
  rw [Vector.length_toList] at htag
  have hbuffer := memcpy_val 4 (by decide) htag
  rw [RptGrp.group, ← UInt8.ofNat_toNat (x := g.firm_id), ← UInt32.ofNat_toNat (x := g.qty),
    ← hfirm, ← hqty]
  exact congrArg (fun tag => Group.mk _ tag _) hbuffer

/-- The groups are read. -/
theorem readGroups_eq {groups : List RptGrp} {A C : Bytes}
    (hf : f = A ++ (groups.flatMap RptGrp.bytes ++ C)) :
    (OrderFillMsgClass.readGroups f A.length groups.length).val = groups.map RptGrp.group := by
  induction groups generalizing A with
  | nil => rfl
  | cons g groups ih =>
      rw [List.flatMap_cons, List.append_assoc] at hf
      have hhead := readGroup_eq hf
      rw [← List.append_assoc] at hf
      have htail := ih hf
      rw [List.length_append, g.length_bytes] at htail
      rw [List.map_cons, ← hhead, ← htail]
      rfl

/-- **The constructor of fills** makes such an object, and reads all groups that the message has. -/
theorem new_fill {b : OrderFill} (hat : (Message.fill h b).At f p) :
    Fill f b (OrderFillMsgClass.new f p).val where
  orderID := by
    refine Eq.trans (congrArg UInt32.ofNat ?_) UInt32.ofNat_toNat
    exact hat.num_eq 6 rfl (UInt32.lt_pow _) (by simp)
  fillQty := by
    refine Eq.trans (congrArg UInt32.ofNat ?_) UInt32.ofNat_toNat
    exact hat.num_eq 8 rfl (UInt32.lt_pow _) (by simp)
  groups := by
    have hcount : num f (p + 38) 1 = b.groups.length :=
      hat.num_eq 9 rfl b.length_lt (by simp)
    have hgroups : (OrderFillMsgClass.readGroups f (p + 39) b.groups.length).val
        = b.groups.map RptGrp.group := by
      obtain ⟨A, C, hf, rfl⟩ := hat.exists_eq
      obtain ⟨C', hsplit⟩ := exists_eq_append hf (k := 10) rfl
      have hread := readGroups_eq hsplit
      rw [List.length_append] at hread
      simpa using hread
    rw [← hcount] at hgroups
    exact hgroups

/-! ### The loop -/

/-- **What has been loaded are the messages of a stream**: each vector has the messages of its type
in the order of the stream, and all are counted. -/
structure Decodes (f : Mapping) (ms : List Message) (s : Loaded) : Prop where
  entries : List.Forall₂ (Entry f) (entries ms) s.vEntryMsg
  acks : List.Forall₂ (Ack f) (acks ms) s.vAckMsg
  fills : List.Forall₂ (Fill f) (fills ms) s.vFillMsg
  count : s.TotalCnt = UInt32.ofNat ms.length

variable {m : Message} {ms : List Message} {s : Loaded}

theorem decodes_nil : Decodes f [] ⟨[], [], [], 0⟩ where
  entries := .nil
  acks := .nil
  fills := .nil
  count := rfl

theorem count_concat (h : s.TotalCnt = UInt32.ofNat ms.length) :
    s.TotalCnt + 1 = UInt32.ofNat (ms ++ [m]).length := by
  rw [h, List.length_append, List.length_singleton, UInt32.ofNat_add]
  rfl

/-- A message of the type that a vector is for. -/
theorem forall₂_concat {β γ : Type} {rel : β → γ → Prop} {select : Message → Option β}
    {xs : List γ} (h : List.Forall₂ rel (ms.filterMap select) xs) {b : β} {x : γ}
    (hm : select m = some b) (hrel : rel b x) :
    List.Forall₂ rel ((ms ++ [m]).filterMap select) (xs ++ [x]) := by
  rw [List.filterMap_append, List.filterMap_cons_some hm]
  exact List.rel_append h (.cons hrel .nil)

/-- A message of another type. -/
theorem forall₂_skip {β γ : Type} {rel : β → γ → Prop} {select : Message → Option β}
    {xs : List γ} (h : List.Forall₂ rel (ms.filterMap select) xs) (hm : select m = none) :
    List.Forall₂ rel ((ms ++ [m]).filterMap select) xs := by
  rwa [List.filterMap_append, List.filterMap_cons_none hm, List.filterMap_nil, List.append_nil]

/-- **A message is loaded**, and the vector of its type has one more. -/
theorem loadMessage_spec (h : Decodes f ms s) (hat : m.At f p) :
    ∃ s', (loadMessage f p s).val = some s' ∧
      Decodes f (ms ++ [m]) { s' with TotalCnt := s'.TotalCnt + 1 } := by
  have hval : (loadMessage f p s).val = (loadSwitch f p s m.msgType).val := by
    rw [← hat.msgType_eq]
    rfl
  rw [hval]
  cases m with
  | entry hd b =>
      exact ⟨_, rfl, forall₂_concat h.entries rfl (new_entry hat), forall₂_skip h.acks rfl,
        forall₂_skip h.fills rfl, count_concat h.count⟩
  | ack hd b =>
      exact ⟨_, rfl, forall₂_skip h.entries rfl, forall₂_concat h.acks rfl (new_ack hat),
        forall₂_skip h.fills rfl, count_concat h.count⟩
  | fill hd b =>
      exact ⟨_, rfl, forall₂_skip h.entries rfl, forall₂_skip h.acks rfl,
        forall₂_concat h.fills rfl (new_fill hat), count_concat h.count⟩

/-- **The loop**, from the start of a message on.  The induction is on the messages that are left,
and `ms` are those in front of them. -/
theorem loadLoop_spec (rest ms : List Message) {s : Loaded}
    (hf : f = encode ms ++ encode rest) (h : Decodes f ms s) :
    Decodes f (ms ++ rest) (loadLoop f (encode ms).length s).val := by
  induction rest generalizing ms s with
  | nil =>
      have hend : ¬ (encode ms).length < f.length := by rw [hf]; simp [encode]
      rw [loadLoop, if_neg hend, List.append_nil]
      exact h
  | cons m rest ih =>
      have hcons : encode (m :: rest) = m.bytes ++ encode rest := List.flatMap_cons
      have hlength := m.length_bytes
      have hat : m.At f (encode ms).length := ⟨encode ms, encode rest, by rw [hf, hcons]; rfl, rfl⟩
      have hlt : (encode ms).length < f.length := by
        rw [hf, hcons, List.length_append, List.length_append, hlength, sizeofHeader]
        omega
      obtain ⟨s', hload, hdecodes⟩ := loadMessage_spec h hat
      have hconcat : encode (ms ++ [m]) = encode ms ++ m.bytes := by
        rw [encode, List.flatMap_append, List.flatMap_singleton]
        rfl
      have hnext : (encode ms).length + sizeofHeader + headerMsgLen f (encode ms).length
          = (encode (ms ++ [m])).length := by
        rw [hat.headerMsgLen_eq, hconcat, List.length_append, hlength, Nat.add_assoc]
      rw [loadLoop, if_pos hlt]
      dsimp only
      rw [hload, hnext]
      have hih := ih (ms ++ [m]) (by rw [hconcat, List.append_assoc, ← hcons]; exact hf)
        hdecodes
      rwa [List.append_assoc] at hih

/-- **LoadFile decodes every stream of messages**, of any length and in any order of the types: it
comes to each message, and makes the object of it. -/
theorem loadFile_decodes (ms : List Message) :
    Decodes (encode ms) ms (loadFile (encode ms)).val :=
  loadLoop_spec ms [] rfl decodes_nil

end LinuxProgram.ProcessOrder
