import LinuxProgram.ProcessOrder.LinkFile
import LinuxProgram.ProcessOrder.LoadFileSpec

/-!
# To which instrument a fill belongs

A fill has the order id that the exchange gave in its acknowledgement, an order entry the
client id of the trader, and an acknowledgement has both.  `ParseFile` takes an order id
for a client id.

* `Acknowledged` — a stream in which the acknowledgements join fills with order entries.
* `ackInstrument` — the instrument of a fill by its acknowledgement, and
  `idInstrument` by its order id as a client id.
* `find_entry` — what the map of `LinkFile` has at a client id.
* `parseFill_some`, `parseLoop_some` — the loop over fills whose order ids are client ids, and
  `parseLoop_none`, where one of them is not.
* `attributes_iff` — the quantities are those by the acknowledgements exactly if what
  goes to a wrong instrument is made up for.
* `swapped_attribution` — the traders number their orders in another order than the
  exchange.
-/

namespace LinuxProgram.ProcessOrder

open Lib

/-! ### The join

The instrument of a fill is found in two ways here: by the acknowledgement that has its order id,
as the format means it, and by an order entry that has this number for its client id, as
`ParseFile` does it.  They are compared instrument by instrument, by what comes in and what goes
out wrongly. -/

/-- The name of the instrument. -/
def OrderEntry.Instrument (b : OrderEntry) : Bytes := cString b.instrument.toList

section Join

variable (ms : List Message)

/-- The order entry with a client id. -/
def entryOf (client_id : UInt64) : Option OrderEntry :=
  (entries ms).find? fun b => b.client_id = client_id

/-- The accepted acknowledgements of order entries that have the order id of a fill. -/
def acknowledging (m : OrderFill) : List OrderAck :=
  (acks ms).filter fun a => a.order_status = 1 ∧ a.order_id = m.order_id ∧
    a.client_id ∈ (entries ms).map (·.client_id)

/-- **The acknowledgements join fills with order entries.** -/
structure Acknowledged : Prop where
  unique : ((entries ms).map (·.client_id)).Nodup
  exactlyOne : ∀ m ∈ fills ms, (acknowledging ms m).length = 1

/-- **The instrument of a fill**, by its acknowledgement. -/
def ackInstrument (m : OrderFill) : Option Bytes :=
  ((acknowledging ms m).head?.bind fun a => entryOf ms a.client_id).map OrderEntry.Instrument

/-- The instrument of the order entry that has the order id of a fill as its client id. -/
def idInstrument (m : OrderFill) : Option Bytes :=
  (entryOf ms (OrderID2ClientID m.order_id)).map OrderEntry.Instrument

/-- The quantity of a fill. -/
def fillQty (m : OrderFill) : ℕ := m.fill_qty.toNat

/-- **What is filled of an instrument.** -/
def filledQty (I : Bytes) : ℕ := total (ackInstrument ms) fillQty (fills ms) I

/-- Fills of other instruments that get here by their order ids. -/
def wronglyIn (I : Bytes) : ℕ :=
  total (idInstrument ms) fillQty ((fills ms).filter fun m => ackInstrument ms m ≠ some I) I

/-- Fills of an instrument that do not get here by their order ids. -/
def wronglyOut (I : Bytes) : ℕ :=
  total (ackInstrument ms) fillQty ((fills ms).filter fun m => idInstrument ms m ≠ some I) I

end Join

/-- What a map says of an instrument. -/
def SumAt (t : TradesPerInstrument) (I : Bytes) : ℕ := ((t.find? I).getD 0).toNat

/-- **The quantities are those by the acknowledgements.** -/
structure Attributes (ms : List Message) (t : TradesPerInstrument) : Prop where
  filled : ∀ I, SumAt t I = filledQty ms I
  sum : (t.entries.map fun e => e.2.toNat).sum = ((fills ms).map fillQty).sum

/-- **What goes to a wrong instrument is made up for**, and no quantity is too large. -/
structure Balanced (ms : List Message) : Prop where
  known : ∀ m ∈ fills ms, OrderID2ClientID m.order_id ∈ (entries ms).map (·.client_id)
  small : ∀ I, filledQty ms I < 2 ^ 64
  balanced : ∀ I, wronglyIn ms I ≡ wronglyOut ms I [MOD 2 ^ 64]

variable {ms : List Message} {f : Mapping} {s : Loaded}

theorem idInstrument_isSome {m : OrderFill} : (idInstrument ms m).isSome ↔
    OrderID2ClientID m.order_id ∈ (entries ms).map (·.client_id) := by
  rw [idInstrument, Option.isSome_map, entryOf, List.find?_isSome, List.mem_map]
  simp only [decide_eq_true_eq]

/-- Every fill has an instrument by its acknowledgement. -/
theorem Acknowledged.exists_ackInstrument (h : Acknowledged ms) {m : OrderFill}
    (hm : m ∈ fills ms) : ∃ I, ackInstrument ms m = some I := by
  obtain ⟨a, ha⟩ := List.length_eq_one_iff.mp (h.exactlyOne m hm)
  have hmem : a ∈ acknowledging ms m := by rw [ha]; exact List.mem_singleton_self a
  have hids : a.client_id ∈ (entries ms).map (·.client_id) := by
    have := (List.mem_filter.mp hmem).2
    rw [decide_eq_true_eq] at this
    exact this.2.2
  obtain ⟨b, hb, hid⟩ := List.mem_map.mp hids
  have hsome : (entryOf ms a.client_id).isSome := by
    rw [entryOf, List.find?_isSome]
    exact ⟨b, hb, decide_eq_true hid⟩
  obtain ⟨b', hb'⟩ := Option.isSome_iff_exists.mp hsome
  exact ⟨b'.Instrument, by rw [ackInstrument, ha, List.head?_cons, Option.bind_some, hb',
    Option.map_some]⟩

variable (ms) in
/-- **The two ways to attribute** differ by what goes to a wrong instrument. -/
theorem total_idInstrument (I : Bytes) :
    total (idInstrument ms) fillQty (fills ms) I + wronglyOut ms I =
      filledQty ms I + wronglyIn ms I :=
  total_exchange (idInstrument ms) (ackInstrument ms) fillQty (fills ms) I

/-! ### LinkFile -/

/-- The map after the loop over the order entries. -/
theorem linkLoop_ids (acks : List OrderAckMsgClass) (es : List OrderEntryMsgClass) (l : Linked) :
    (es.foldl (linkEntry f acks) l).ClientID2OrderEntry =
      es.foldl (fun m e => m.upsert (e.GetClientID f) none fun _ => some e)
        l.ClientID2OrderEntry := by
  induction es generalizing l with
  | nil => rfl
  | cons e es ih =>
      rw [List.foldl_cons, List.foldl_cons, ih]
      rfl

/-- The first of some things, and of the objects made from them. -/
theorem rel_find? {α β : Type} {R : α → β → Prop} {p : α → Bool} {q : β → Bool}
    (hpq : ∀ a b, R a b → p a = q b) {as : List α} {bs : List β} (h : List.Forall₂ R as bs) :
    Option.Rel R (as.find? p) (bs.find? q) := by
  induction h with
  | nil => exact .none
  | @cons a b as bs hab _ ih =>
      rw [List.find?_cons, List.find?_cons, hpq a b hab]
      cases q b with
      | true => exact .some hab
      | false => exact ih

/-- The objects have the client ids of the order entries. -/
theorem map_clientID {bs : List OrderEntry} {es : List OrderEntryMsgClass}
    (h : List.Forall₂ (Entry f) bs es) :
    es.map (·.GetClientID f) = bs.map (·.client_id) := by
  induction h with
  | nil => rfl
  | cons hbe _ ih => rw [List.map_cons, List.map_cons, hbe.clientID, ih]

variable (sortActive : StdSort ActiveTrader) (sortLiquidity : StdSort Liquidity)

/-- **The map has the order entry with a client id.** -/
theorem find_entry (h : Decodes f ms s) (hunique : ((entries ms).map (·.client_id)).Nodup)
    (client_id : UInt64) : Option.Rel (Entry f) (entryOf ms client_id)
      ((linkFile f sortActive sortLiquidity s).ClientID2OrderEntry.find? client_id).join := by
  have hids : (linkFile f sortActive sortLiquidity s).ClientID2OrderEntry =
      s.vEntryMsg.foldl (fun m e => m.upsert (e.GetClientID f) none fun _ => some e) .empty :=
    linkLoop_ids s.vAckMsg s.vEntryMsg _
  rw [← map_clientID h.entries] at hunique
  rw [hids, SortedMap.find?_assign (fun e : OrderEntryMsgClass => e.GetClientID f) some,
    SortedMap.find?_empty, Option.or_none, find?_reverse hunique]
  have hrel := rel_find? (p := fun b => b.client_id = client_id)
    (q := fun e => e.GetClientID f = client_id)
    (fun b e hbe => by rw [hbe.clientID]) h.entries
  rw [entryOf]
  convert hrel using 1
  cases s.vEntryMsg.find? fun e => e.GetClientID f = client_id <;> rfl

/-! ### ParseFile

An order id that is no client id makes `operator[]` insert a null pointer, which is then used.
Otherwise the quantity of the fill is added, in 64 bits, to what the map has for the instrument of
that order entry. -/

theorem cString_append (name : Bytes) : cString (name ++ [0]) = cString name := by
  induction name with
  | nil => rfl
  | cons c name ih =>
      rw [cString, cString] at ih
      rw [cString, cString, List.cons_append, List.takeWhile_cons, List.takeWhile_cons, ih]

theorem Entry.instrument_eq {b : OrderEntry} {e : OrderEntryMsgClass} (h : Entry f b e) :
    cString e.GetInstrument = b.Instrument := by
  rw [h.instrument, cString_append, OrderEntry.Instrument]

/-- A quantity is added. -/
theorem toNat_add_qty (x : UInt64) (q : UInt32) :
    (x + q.toUInt64).toNat = (x.toNat + q.toNat) % 2 ^ 64 := by
  rw [UInt64.toNat_add, UInt32.toNat_toUInt64]

theorem sumAt_lt (t : TradesPerInstrument) (I : Bytes) : SumAt t I < 2 ^ 64 := UInt64.toNat_lt _

theorem sumAt_upsert (t : TradesPerInstrument) (I J : Bytes) (g : UInt64 → UInt64) :
    SumAt (t.upsert I 0 g) J = if J = I then (g ((t.find? I).getD 0)).toNat else SumAt t J := by
  rw [SumAt, SortedMap.find?_upsert]
  split
  · rfl
  · rfl

/-- **A map with the order entries of a stream.** -/
def Linked.Has (f : Mapping) (ms : List Message) (ids : ID2Entry) : Prop :=
  ∀ client_id, Option.Rel (Entry f) (entryOf ms client_id) (ids.find? client_id).join

/-- **A fill**, whose order id is a client id. -/
theorem parseFill_some {p : Parsed} (hp : Linked.Has f ms p.ClientID2OrderEntry) {m : OrderFill}
    {x : OrderFillMsgClass} (hx : Fill f m x) {I : Bytes} (hI : idInstrument ms m = some I) :
    ∃ t, parseFill f p x = some ⟨p.ClientID2OrderEntry, t⟩ ∧
      ∀ J, SumAt t J =
        (SumAt p.TradesMap J + if idInstrument ms m = some J then fillQty m else 0) % 2 ^ 64 := by
  obtain ⟨b, hb, hname⟩ := Option.map_eq_some_iff.mp hI
  have hrel := hp (OrderID2ClientID m.order_id)
  rw [hb] at hrel
  obtain ⟨e, hjoin, hbe⟩ : ∃ e, (p.ClientID2OrderEntry.find?
      (OrderID2ClientID m.order_id)).join = some e ∧ Entry f b e := by
    cases hrel' : (p.ClientID2OrderEntry.find? (OrderID2ClientID m.order_id)).join with
    | none =>
        rw [hrel'] at hrel
        cases hrel
    | some e =>
        rw [hrel'] at hrel
        cases hrel with
        | some hbe => exact ⟨e, rfl, hbe⟩
  have hfind := Option.join_eq_some_iff.mp hjoin
  have hsame : p.ClientID2OrderEntry.upsert (OrderID2ClientID m.order_id) none id =
      p.ClientID2OrderEntry := SortedMap.upsert_id hfind none
  have hkey : cString e.GetInstrument = I := hbe.instrument_eq.trans hname
  simp only [parseFill, hx.orderID, hsame, hjoin, hkey, hx.fillQty]
  refine ⟨_, rfl, fun J => ?_⟩
  by_cases hJ : J = I
  · -- the instrument is new, or it is not
    cases htrades : p.TradesMap.find? I with
    | some old =>
        dsimp only
        rw [sumAt_upsert, if_pos hJ, hI, hJ, if_pos rfl, toNat_add_qty]
        rfl
    | none =>
        have hzero : SumAt p.TradesMap I = 0 := by rw [SumAt, htrades]; rfl
        dsimp only
        rw [sumAt_upsert, if_pos hJ, hI, hJ, if_pos rfl, hzero, zero_add, UInt32.toNat_toUInt64]
        exact (Nat.mod_eq_of_lt (m.fill_qty.toNat_lt.trans (by decide))).symm
  · have hne : idInstrument ms m ≠ some J := by
      rw [hI]
      exact fun h => hJ (Option.some_inj.mp h).symm
    rw [if_neg hne, add_zero, Nat.mod_eq_of_lt (sumAt_lt _ J)]
    cases p.TradesMap.find? I with
    | some old => exact (sumAt_upsert _ _ _ _).trans (if_neg hJ)
    | none => exact (sumAt_upsert _ _ _ _).trans (if_neg hJ)

/-- **A fill**, for whose order id there is no pointer. -/
theorem parseFill_null {p : Parsed} {x : OrderFillMsgClass}
    (h : (p.ClientID2OrderEntry.find? (OrderID2ClientID (x.GetOrderID f))).join = none) :
    parseFill f p x = none := by
  have hnull : ((p.ClientID2OrderEntry.upsert (OrderID2ClientID (x.GetOrderID f)) none id).find?
      (OrderID2ClientID (x.GetOrderID f))).join = none := by
    rw [SortedMap.find?_upsert, if_pos rfl]
    cases hfind : p.ClientID2OrderEntry.find? (OrderID2ClientID (x.GetOrderID f)) with
    | none => rfl
    | some pointer =>
        rw [hfind] at h
        exact h
  rw [parseFill]
  dsimp only
  rw [hnull]

/-- **A fill**, whose order id is no client id. -/
theorem parseFill_none {p : Parsed} (hp : Linked.Has f ms p.ClientID2OrderEntry) {m : OrderFill}
    {x : OrderFillMsgClass} (hx : Fill f m x) (hI : idInstrument ms m = none) :
    parseFill f p x = none := by
  have hb := Option.map_eq_none_iff.mp hI
  have hrel := hp (OrderID2ClientID m.order_id)
  rw [hb] at hrel
  apply parseFill_null
  rw [hx.orderID]
  cases hjoin : (p.ClientID2OrderEntry.find? (OrderID2ClientID m.order_id)).join with
  | none => rfl
  | some e =>
      rw [hjoin] at hrel
      cases hrel

/-- **The loop over the fills**, whose order ids are client ids. -/
theorem parseLoop_some {bs : List OrderFill} {xs : List OrderFillMsgClass}
    (h : List.Forall₂ (Fill f) bs xs) {p : Parsed} (hp : Linked.Has f ms p.ClientID2OrderEntry)
    (hI : ∀ m ∈ bs, (idInstrument ms m).isSome) :
    ∃ t, xs.foldlM (parseFill f) p = some ⟨p.ClientID2OrderEntry, t⟩ ∧
      ∀ J, SumAt t J = (SumAt p.TradesMap J + total (idInstrument ms) fillQty bs J) % 2 ^ 64 := by
  induction h generalizing p with
  | nil =>
      refine ⟨p.TradesMap, rfl, fun J => ?_⟩
      rw [total_nil, add_zero, Nat.mod_eq_of_lt (sumAt_lt _ J)]
  | @cons m x bs xs hx _ ih =>
      rw [List.forall_mem_cons] at hI
      obtain ⟨I, hm⟩ := Option.isSome_iff_exists.mp hI.1
      obtain ⟨t, hstep, ht⟩ := parseFill_some hp hx hm
      obtain ⟨t', hrun, ht'⟩ := ih (p := ⟨p.ClientID2OrderEntry, t⟩) hp hI.2
      refine ⟨t', ?_, fun J => ?_⟩
      · rw [List.foldlM_cons, hstep]
        exact hrun
      · rw [ht' J, ht J, total_cons, Nat.mod_add_mod, Nat.add_assoc]

/-- **The loop over the fills**, one of whose order ids is no client id. -/
theorem parseLoop_none {bs : List OrderFill} {xs : List OrderFillMsgClass}
    (h : List.Forall₂ (Fill f) bs xs) {p : Parsed} (hp : Linked.Has f ms p.ClientID2OrderEntry)
    {m : OrderFill} (hm : m ∈ bs) (hI : idInstrument ms m = none) :
    xs.foldlM (parseFill f) p = none := by
  induction h generalizing p with
  | nil => cases hm
  | @cons m' x bs xs hx _ ih =>
      rw [List.foldlM_cons]
      cases hm' : idInstrument ms m' with
      | none =>
          rw [parseFill_none hp hx hm']
          rfl
      | some I =>
          have hrest : m ∈ bs := by
            rcases List.mem_cons.mp hm with rfl | hrest
            · exact absurd hI (by rw [hm']; nofun)
            · exact hrest
          obtain ⟨t, hstep, -⟩ := parseFill_some hp hx hm'
          rw [hstep]
          exact ih (p := ⟨p.ClientID2OrderEntry, t⟩) hp hrest

/-! ### Attribution

What `ParseFile` finds is the total by order ids, modulo `2 ^ 64`.  It agrees with the total by
acknowledgements if the differences cancel for every instrument and the quantity is not too large,
and only then. -/

/-- The sum over the entries of the map follows from what it says of each instrument. -/
theorem sum_of_filled (h : Acknowledged ms) {t : TradesPerInstrument}
    (hfilled : ∀ I, SumAt t I = filledQty ms I) :
    (t.entries.map fun e => e.2.toNat).sum = ((fills ms).map fillQty).sum := by
  let named : Finset Bytes := ((fills ms).filterMap (ackInstrument ms)).toFinset
  have hentries : (t.entries.map fun e => e.2.toNat).sum = ∑ I ∈ t.keys, filledQty ms I := by
    refine t.sum_entries fun I v hv => ?_
    rw [← hfilled I, SumAt, hv, Option.getD_some]
  have hzero : ∀ I ∈ t.keys ∪ named, I ∉ t.keys → filledQty ms I = 0 := by
    intro I _ hI
    rw [← hfilled I, SumAt, SortedMap.find?_eq_none hI]
    rfl
  have hnamed : ∀ m ∈ fills ms, ∃ I ∈ t.keys ∪ named, ackInstrument ms m = some I := by
    intro m hm
    obtain ⟨I, hI⟩ := h.exists_ackInstrument hm
    refine ⟨I, Finset.mem_union_right _ ?_, hI⟩
    exact List.mem_toFinset.mpr (List.mem_filterMap.mpr ⟨m, hm, hI⟩)
  calc (t.entries.map fun e => e.2.toNat).sum
      = ∑ I ∈ t.keys, filledQty ms I := hentries
    _ = ∑ I ∈ t.keys ∪ named, filledQty ms I :=
        Finset.sum_subset Finset.subset_union_left hzero
    _ = ((fills ms).map fillQty).sum := sum_total (ackInstrument ms) fillQty _ hnamed

/-- What the loop finds agrees with the acknowledgements. -/
theorem filled_iff {t : TradesPerInstrument}
    (ht : ∀ I, SumAt t I = total (idInstrument ms) fillQty (fills ms) I % 2 ^ 64) (I : Bytes) :
    SumAt t I = filledQty ms I ↔
      filledQty ms I < 2 ^ 64 ∧ wronglyIn ms I ≡ wronglyOut ms I [MOD 2 ^ 64] := by
  have hexchange := total_idInstrument ms I
  rw [ht I]
  constructor
  · intro heq
    have hlt : filledQty ms I < 2 ^ 64 := by
      rw [← heq]
      exact Nat.mod_lt _ (by positivity)
    refine ⟨hlt, Nat.ModEq.add_left_cancel (a := filledQty ms I)
      (b := total (idInstrument ms) fillQty (fills ms) I) ?_ ?_⟩
    · rw [Nat.ModEq, heq, Nat.mod_eq_of_lt hlt]
    · rw [hexchange]
  · rintro ⟨hlt, hmoved⟩
    have hsum : total (idInstrument ms) fillQty (fills ms) I + wronglyOut ms I ≡
        filledQty ms I + wronglyOut ms I [MOD 2 ^ 64] := by
      rw [hexchange]
      exact hmoved.add_left _
    have hmod := hsum.add_right_cancel' _
    rw [Nat.ModEq, Nat.mod_eq_of_lt hlt] at hmod
    exact hmod

/-- **Fills are attributed by their acknowledgements** exactly if what goes to a wrong
instrument is made up for. -/
theorem attributes_iff (h : Acknowledged ms) (sortActive : StdSort ActiveTrader)
    (sortLiquidity : StdSort Liquidity) :
    (∃ parsed, processFile (encode ms) sortActive sortLiquidity = some parsed ∧
      Attributes ms parsed.TradesMap) ↔ Balanced ms := by
  have hloaded := loadFile_decodes ms
  have hids : Linked.Has (encode ms) ms (linkFile (encode ms) sortActive sortLiquidity
      (loadFile (encode ms)).val).ClientID2OrderEntry :=
    find_entry sortActive sortLiquidity hloaded h.unique
  by_cases hknown : ∀ m ∈ fills ms, (idInstrument ms m).isSome
  · obtain ⟨t, hrun, ht⟩ := parseLoop_some hloaded.fills (p := ⟨_, .empty⟩) hids hknown
    have hsum : ∀ I, SumAt t I = total (idInstrument ms) fillQty (fills ms) I % 2 ^ 64 := by
      intro I
      have hempty : SumAt .empty I = 0 := rfl
      rw [ht I, hempty, zero_add]
    have hiff := filled_iff hsum
    constructor
    · rintro ⟨parsed, hparsed, hattributes⟩
      have hsame : t = parsed.TradesMap :=
        congrArg Parsed.TradesMap (Option.some_inj.mp (hrun.symm.trans hparsed))
      subst hsame
      have hall := fun I => (hiff I).mp (hattributes.filled I)
      exact ⟨fun m hm => idInstrument_isSome.mp (hknown m hm), fun I => (hall I).1,
        fun I => (hall I).2⟩
    · intro hbalanced
      have hfilled := fun I => (hiff I).mpr ⟨hbalanced.small I, hbalanced.balanced I⟩
      exact ⟨_, hrun, hfilled, sum_of_filled h hfilled⟩
  · refine iff_of_false ?_ fun hbalanced => hknown fun m hm =>
      idInstrument_isSome.mpr (hbalanced.known m hm)
    rintro ⟨parsed, hparsed, -⟩
    simp only [not_forall] at hknown
    obtain ⟨m, hm, hnone⟩ := hknown
    have hcrash := parseLoop_none hloaded.fills (p := ⟨_, .empty⟩) hids hm
      (Option.not_isSome_iff_eq_none.mp hnone)
    exact Option.some_ne_none parsed (hparsed.symm.trans hcrash)

/-! ### Two streams -/

/-- A header whose members do not matter here. -/
def anyHeader : Header where
  Header_marker := 0x5453
  Header_sequence_id := 1
  Header_timestamp := 0
  Header_msg_direction := 0

/-- An order for an instrument whose name is one letter. -/
def order (client_id : UInt64) (name : UInt8) : Message :=
  .entry anyHeader
    { price := 10000
      qty := 9
      instrument := #v[name, 0, 0, 0, 0, 0, 0, 0, 0, 0]
      side := 1
      client_id := client_id
      time_in_force := 2
      trader_tag := #v[84, 48, 49]
      firm_id := 1
      firm := []
      termination_string := Vector.replicate 8 68
      firm_le := by decide }

/-- An order is accepted. -/
def accepted (order_id : UInt32) (client_id : UInt64) : Message :=
  .ack anyHeader
    { order_id := order_id
      client_id := client_id
      order_status := 1
      reject_code := 0
      termination_string := Vector.replicate 8 68 }

/-- An order is filled. -/
def filled (order_id fill_qty : UInt32) : Message :=
  .fill anyHeader
    { order_id := order_id
      fill_price := 10000
      fill_qty := fill_qty
      groups := []
      termination_string := Vector.replicate 8 68
      length_lt := by decide }

/-- Orders that the exchange numbers as the traders do. -/
def sameIDs : List Message := [order 1 65, accepted 1 1, order 2 66, accepted 2 2, filled 2 5]

set_option maxRecDepth 100000 in
theorem attributes_sameIDs :
    (∃ parsed, processFile (encode sameIDs) .insertion .insertion = some parsed ∧
      Attributes sameIDs parsed.TradesMap) ↔ Balanced sameIDs :=
  attributes_iff ⟨by decide +kernel, by decide +kernel⟩ .insertion .insertion

/-- Orders that the exchange numbers the other way round. -/
def swappedIDs : List Message := [order 1 65, accepted 2 1, order 2 66, accepted 1 2, filled 1 5]

set_option maxRecDepth 100000 in
/-- **A fill goes to a wrong instrument.** -/
theorem swapped_attribution : Acknowledged swappedIDs ∧
    ∀ sortActive sortLiquidity, ¬ ∃ parsed,
      processFile (encode swappedIDs) sortActive sortLiquidity = some parsed ∧
        Attributes swappedIDs parsed.TradesMap := by
  refine ⟨⟨by decide +kernel, by decide +kernel⟩, ?_⟩
  rintro sortActive sortLiquidity ⟨parsed, hparsed, hattributes⟩
  have hrun : (parseFile (encode swappedIDs) (linkLoop (encode swappedIDs)
      (loadFile (encode swappedIDs)).val) (loadFile (encode swappedIDs)).val).map
        (fun p => SumAt p.TradesMap [65]) = some 5 := by decide +kernel
  have hparsed' : parseFile (encode swappedIDs) (linkLoop (encode swappedIDs)
      (loadFile (encode swappedIDs)).val) (loadFile (encode swappedIDs)).val = some parsed :=
    hparsed
  have hnone : filledQty swappedIDs [65] = 0 := by decide +kernel
  rw [hparsed', Option.map_some, hattributes.filled, hnone] at hrun
  exact absurd (Option.some_inj.mp hrun) (by decide)

end LinuxProgram.ProcessOrder
