import LinuxProgram.ProcessOrder.Attribution

/-!
# The rankings of traders

`LinkFile` adds up the quantities of the accepted orders of each trader, and those of the
orders that are good for the day, in 32 bits.

* `rank` — the loop over the order entries, for one of the two vectors.
* `Ranking` — what is to be in a vector: every trader once, with the exact total of its
  orders, and the largest total in front.
* `qtyAt_rank` — what the loop leaves is the total modulo `2 ^ 32`.
* `rankings_iff` — both vectors are right exactly if no total reaches `2 ^ 32`.
* `rankings_overflow` — two accepted orders of one trader, of half of that each.
-/

namespace LinuxProgram.ProcessOrder

open Lib

/-! ### Traders -/

/-- The trader tag, as `operator==` compares it. -/
def TraderQty.tag (x : TraderQty) : Bytes := cString (x.TraderName.take 3)

/-- The trader tag of an order entry. -/
def OrderEntryMsgClass.tag (e : OrderEntryMsgClass) : Bytes := cString (e.GetTraderTag.take 3)

/-- The order entry is acknowledged, and the first acknowledgement accepts it. -/
def isAccepted (f : Mapping) (vAckMsg : List OrderAckMsgClass) (e : OrderEntryMsgClass) : Bool :=
  (vAckMsg.find? fun a => a.isMatchClientID f (e.GetClientID f)).any (·.Accept f)

section Rank

variable (f : Mapping) (counts : OrderEntryMsgClass → Bool)

/-- A trader with the quantity of an order entry. -/
def trader (e : OrderEntryMsgClass) : TraderQty := ⟨e.GetTraderTag, e.GetQty f⟩

/-- **The loop over the order entries**, as far as one vector is concerned. -/
def rank (es : List OrderEntryMsgClass) : List TraderQty :=
  es.foldl (fun v e => if counts e then addQty (trader f e) v else v) []

/-- The trader tag of an order entry that counts. -/
def countedTag (e : OrderEntryMsgClass) : Option Bytes := if counts e then some e.tag else none

/-- **The exact total** of a trader. -/
def totalQty (es : List OrderEntryMsgClass) (tag : Bytes) : ℕ :=
  total (countedTag counts) (fun e => (e.GetQty f).toNat) es tag

/-- **A ranking of traders** by the order entries that count: every trader of one occurs once, with
the exact total of its quantities, and they are in descending order, so that nobody has more than
the first one. -/
structure Ranking (es : List OrderEntryMsgClass) (v : List TraderQty) : Prop where
  once : (v.map TraderQty.tag).Nodup
  mem_iff : ∀ tag, tag ∈ v.map TraderQty.tag ↔ ∃ e ∈ es, countedTag counts e = some tag
  exact : ∀ t ∈ v, t.Qty.toNat = totalQty f counts es t.tag
  descending : v.Pairwise fun t t' => t'.Qty ≤ t.Qty
  first : ∀ t ∈ v.head?, ∀ tag, totalQty f counts es tag ≤ totalQty f counts es t.tag

end Rank

variable {f : Mapping} {counts : OrderEntryMsgClass → Bool} {es : List OrderEntryMsgClass}
  {v : List TraderQty} {x t : TraderQty} {tag : Bytes}

/-! ### The quantity of a trader -/

/-- The quantity that a vector has for a trader. -/
def qtyAt (v : List TraderQty) (tag : Bytes) : UInt32 :=
  ((v.find? fun t => t.tag = tag).map TraderQty.Qty).getD 0

theorem eq_iff {y : TraderQty} : y.eq x = true ↔ y.tag = x.tag := decide_eq_true_iff

theorem qtyAt_cons (y : TraderQty) (v : List TraderQty) (tag : Bytes) :
    qtyAt (y :: v) tag = if y.tag = tag then y.Qty else qtyAt v tag := by
  rw [qtyAt, List.find?_cons]
  by_cases h : y.tag = tag
  · rw [if_pos h, decide_eq_true h]
    rfl
  · rw [if_neg h, decide_eq_false h]
    rfl

/-- **A quantity is added** to what its trader has. -/
theorem qtyAt_addQty (x : TraderQty) (v : List TraderQty) (tag : Bytes) :
    qtyAt (addQty x v) tag = qtyAt v tag + if x.tag = tag then x.Qty else 0 := by
  induction v with
  | nil =>
      rw [addQty, qtyAt_cons]
      exact (UInt32.zero_add _).symm
  | cons y ys ih =>
      rw [addQty]
      by_cases hyx : y.eq x = true
      · -- the trader is found
        have htag := eq_iff.mp hyx
        have hsame : TraderQty.tag { y with Qty := y.Qty + x.Qty } = x.tag := htag
        rw [if_pos hyx, qtyAt_cons, qtyAt_cons, hsame, htag]
        split
        · rfl
        · exact (UInt32.add_zero _).symm
      · rw [if_neg hyx, qtyAt_cons, qtyAt_cons, ih]
        by_cases hy : y.tag = tag
        · have hx : x.tag ≠ tag := fun hx => hyx (eq_iff.mpr (hy.trans hx.symm))
          rw [if_pos hy, if_pos hy, if_neg hx, UInt32.add_zero]
        · rw [if_neg hy, if_neg hy]

/-- A new trader is behind the others. -/
theorem map_tag_addQty (x : TraderQty) (v : List TraderQty) :
    (addQty x v).map TraderQty.tag =
      if x.tag ∈ v.map TraderQty.tag then v.map TraderQty.tag
      else v.map TraderQty.tag ++ [x.tag] := by
  induction v with
  | nil => rfl
  | cons y ys ih =>
      rw [addQty]
      by_cases hyx : y.eq x = true
      · have htag := eq_iff.mp hyx
        rw [if_pos hyx, List.map_cons, List.map_cons, if_pos (List.mem_cons.mpr (.inl htag.symm))]
        rfl
      · have hne : x.tag ≠ y.tag := fun h => hyx (eq_iff.mpr h.symm)
        rw [if_neg hyx, List.map_cons, ih, List.map_cons]
        simp only [List.mem_cons, hne, false_or]
        split
        · rfl
        · rfl

theorem mem_map_tag_addQty : tag ∈ (addQty x v).map TraderQty.tag ↔
    tag ∈ v.map TraderQty.tag ∨ tag = x.tag := by
  rw [map_tag_addQty]
  split
  · rename_i hx
    exact ⟨Or.inl, fun h => h.elim id fun h => h ▸ hx⟩
  · rw [List.mem_append, List.mem_singleton]

theorem nodup_addQty (h : (v.map TraderQty.tag).Nodup) (x : TraderQty) :
    ((addQty x v).map TraderQty.tag).Nodup := by
  rw [map_tag_addQty]
  split
  · exact h
  · rename_i hx
    rw [List.nodup_append_comm]
    exact List.nodup_cons.mpr ⟨hx, h⟩

/-- The quantity of a trader that occurs once. -/
theorem qtyAt_of_mem (h : (v.map TraderQty.tag).Nodup) (ht : t ∈ v) : qtyAt v t.tag = t.Qty := by
  rw [qtyAt, (find?_key_iff h).mpr ⟨ht, rfl⟩]
  rfl

/-! ### The loop

The traders are those of the order entries that count, each of them once, in the order in which
they occur first.  Their quantities are added in 32 bits, so what the vector has is the exact
total modulo `2 ^ 32`. -/

theorem rank_concat (f : Mapping) (counts : OrderEntryMsgClass → Bool)
    (es : List OrderEntryMsgClass) (e : OrderEntryMsgClass) : rank f counts (es ++ [e]) =
      if counts e then addQty (trader f e) (rank f counts es) else rank f counts es := by
  rw [rank, List.foldl_append]
  rfl

theorem totalQty_concat (f : Mapping) (counts : OrderEntryMsgClass → Bool)
    (es : List OrderEntryMsgClass) (e : OrderEntryMsgClass) (tag : Bytes) :
    totalQty f counts (es ++ [e]) tag = totalQty f counts es tag +
      if countedTag counts e = some tag then (e.GetQty f).toNat else 0 := by
  rw [totalQty, total_append, total_cons, total_nil, add_zero, totalQty]

theorem nodup_rank (f : Mapping) (counts : OrderEntryMsgClass → Bool)
    (es : List OrderEntryMsgClass) : ((rank f counts es).map TraderQty.tag).Nodup := by
  induction es using List.reverseRecOn with
  | nil => exact .nil
  | append_singleton es e ih =>
      rw [rank_concat]
      split
      · exact nodup_addQty ih _
      · exact ih

/-- The traders are those of the order entries that count. -/
theorem mem_rank (f : Mapping) (counts : OrderEntryMsgClass → Bool)
    (es : List OrderEntryMsgClass) (tag : Bytes) :
    tag ∈ (rank f counts es).map TraderQty.tag ↔ ∃ e ∈ es, countedTag counts e = some tag := by
  induction es using List.reverseRecOn with
  | nil => exact ⟨nofun, nofun⟩
  | append_singleton es e ih =>
      simp only [List.mem_append, List.mem_singleton, or_and_right, exists_or, exists_eq_left]
      rw [rank_concat, countedTag]
      split
      · rw [mem_map_tag_addQty, ih, Option.some_inj, eq_comm]
        rfl
      · rw [ih]
        exact ⟨Or.inl, fun h => h.elim id nofun⟩

/-- **The quantity of a trader** is the total modulo `2 ^ 32`. -/
theorem qtyAt_rank (f : Mapping) (counts : OrderEntryMsgClass → Bool)
    (es : List OrderEntryMsgClass) (tag : Bytes) :
    qtyAt (rank f counts es) tag = UInt32.ofNat (totalQty f counts es tag) := by
  induction es using List.reverseRecOn with
  | nil => rfl
  | append_singleton es e ih =>
      rw [rank_concat, totalQty_concat, countedTag, UInt32.ofNat_add, ← ih]
      split
      · have htag : (trader f e).tag = e.tag := rfl
        simp only [qtyAt_addQty, Option.some_inj, htag]
        split
        · rw [UInt32.ofNat_toNat]
          rfl
        · rfl
      · exact (UInt32.add_zero _).symm

/-! ### Right rankings -/

theorem strictWeak_byQty : StrictWeak byQty := by
  have h : byQty = fun L R => decide (L.Qty.toNat > R.Qty.toNat) := rfl
  rw [h]
  exact StrictWeak.ofKeyDesc fun t : TraderQty => t.Qty.toNat

theorem totalQty_eq_zero (h : ¬ ∃ e ∈ es, countedTag counts e = some tag) :
    totalQty f counts es tag = 0 := by
  have hnil : es.filter (fun e => countedTag counts e = some tag) = [] := by
    rw [List.filter_eq_nil_iff]
    intro e he htag
    exact h ⟨e, he, of_decide_eq_true htag⟩
  rw [totalQty, total, hnil]
  rfl

/-- A quantity of 32 bits that is exact shows that the total has 32 bits. -/
theorem Ranking.total_lt (h : Ranking f counts es v) (tag : Bytes) :
    totalQty f counts es tag < 2 ^ 32 := by
  by_cases hcounted : ∃ e ∈ es, countedTag counts e = some tag
  · obtain ⟨t, ht, rfl⟩ := List.mem_map.mp ((h.mem_iff tag).mpr hcounted)
    rw [← h.exact t ht]
    exact t.Qty.toNat_lt
  · rw [totalQty_eq_zero hcounted]
    decide

/-- **A sorted vector is right** exactly if no total reaches `2 ^ 32`. -/
theorem ranking_iff (f : Mapping) (counts : OrderEntryMsgClass → Bool)
    (es : List OrderEntryMsgClass) (sort : StdSort TraderQty) :
    Ranking f counts es (sort.run byQty (rank f counts es)) ↔
      ∀ tag, totalQty f counts es tag < 2 ^ 32 := by
  constructor
  · exact fun h tag => h.total_lt tag
  · intro hlt
    have hperm := sort.perm strictWeak_byQty (rank f counts es)
    have hmem : ∀ tag, tag ∈ (sort.run byQty (rank f counts es)).map TraderQty.tag ↔
        ∃ e ∈ es, countedTag counts e = some tag := fun tag =>
      ((hperm.map TraderQty.tag).mem_iff).trans (mem_rank f counts es tag)
    have hexact : ∀ t ∈ sort.run byQty (rank f counts es),
        t.Qty.toNat = totalQty f counts es t.tag := by
      intro t ht
      rw [← qtyAt_of_mem (nodup_rank f counts es) (hperm.subset ht), qtyAt_rank,
        UInt32.toNat_ofNat']
      exact Nat.mod_eq_of_lt (hlt t.tag)
    have hdescending : (sort.run byQty (rank f counts es)).Pairwise
        fun t t' => t'.Qty ≤ t.Qty := by
      refine (sort.sorted strictWeak_byQty (rank f counts es)).imp fun h => ?_
      exact UInt32.not_lt.mp (of_decide_eq_false h)
    refine ⟨(hperm.map TraderQty.tag).nodup_iff.mpr (nodup_rank f counts es), hmem, hexact,
      hdescending, fun t ht tag => ?_⟩
    by_cases hcounted : ∃ e ∈ es, countedTag counts e = some tag
    · obtain ⟨t', ht', rfl⟩ := List.mem_map.mp ((hmem tag).mpr hcounted)
      -- the first one is not below any other
      obtain ⟨ts, hts⟩ : ∃ ts, sort.run byQty (rank f counts es) = t :: ts :=
        List.head?_eq_some_iff.mp ht
      rw [← hexact t' ht', ← hexact t (hts ▸ .head _)]
      rw [hts] at ht' hdescending
      rcases List.mem_cons.mp ht' with rfl | ht'
      · exact le_rfl
      · exact UInt32.le_iff_toNat_le.mp ((List.pairwise_cons.mp hdescending).1 t' ht')
    · rw [totalQty_eq_zero hcounted]
      exact Nat.zero_le _

/-! ### LinkFile -/

/-- The vectors behind the loop over the order entries. -/
theorem linkLoop_rank (acks : List OrderAckMsgClass) (es : List OrderEntryMsgClass) (l : Linked) :
    (es.foldl (linkEntry f acks) l).ActiveVector =
        es.foldl (fun v e => if isAccepted f acks e then addQty (trader f e) v else v)
          l.ActiveVector ∧
      (es.foldl (linkEntry f acks) l).LiquidityVector =
        es.foldl (fun v e => if e.isGFD f then addQty (trader f e) v else v)
          l.LiquidityVector := by
  induction es generalizing l with
  | nil => exact ⟨rfl, rfl⟩
  | cons e es ih =>
      obtain ⟨hactive, hliquidity⟩ := ih (linkEntry f acks l e)
      exact ⟨hactive, hliquidity⟩

theorem activeVector_eq (f : Mapping) (sortActive : StdSort ActiveTrader)
    (sortLiquidity : StdSort Liquidity) (s : Loaded) :
    (linkFile f sortActive sortLiquidity s).ActiveVector =
      sortActive.run byQty (rank f (isAccepted f s.vAckMsg) s.vEntryMsg) :=
  congrArg (sortActive.run byQty) (linkLoop_rank s.vAckMsg s.vEntryMsg _).1

theorem liquidityVector_eq (f : Mapping) (sortActive : StdSort ActiveTrader)
    (sortLiquidity : StdSort Liquidity) (s : Loaded) :
    (linkFile f sortActive sortLiquidity s).LiquidityVector =
      sortLiquidity.run byQty (rank f (·.isGFD f) s.vEntryMsg) :=
  congrArg (sortLiquidity.run byQty) (linkLoop_rank s.vAckMsg s.vEntryMsg _).2

/-- **Both rankings are right** exactly if no trader has a total of `2 ^ 32`.  The totals are 32-bit
words, and one that wraps stands in the order of what is left of it. -/
theorem rankings_iff (f : Mapping) (sortActive : StdSort ActiveTrader)
    (sortLiquidity : StdSort Liquidity) (s : Loaded) :
    (Ranking f (isAccepted f s.vAckMsg) s.vEntryMsg
        (linkFile f sortActive sortLiquidity s).ActiveVector ∧
      Ranking f (·.isGFD f) s.vEntryMsg
        (linkFile f sortActive sortLiquidity s).LiquidityVector) ↔
    ∀ tag, totalQty f (isAccepted f s.vAckMsg) s.vEntryMsg tag < 2 ^ 32 ∧
      totalQty f (·.isGFD f) s.vEntryMsg tag < 2 ^ 32 := by
  rw [activeVector_eq, liquidityVector_eq, ranking_iff, ranking_iff, forall_and]

/-- An order of half of `2 ^ 32`. -/
def largeOrder (client_id : UInt64) : Message :=
  .entry anyHeader
    { price := 10000
      qty := 2147483648
      instrument := Vector.replicate 10 65
      side := 1
      client_id := client_id
      time_in_force := 2
      trader_tag := Vector.replicate 3 84
      firm_id := 1
      firm := [70]
      termination_string := Vector.replicate 8 68
      firm_le := by decide }

def largeOrders : List Message := [largeOrder 1, accepted 1 1, largeOrder 2, accepted 2 2]

set_option maxRecDepth 100000 in
/-- **Two large orders** of the trader `TTT`, whose quantity comes out as 0. -/
theorem rankings_overflow : ¬ ∀ (ms : List Message) (sortActive : StdSort ActiveTrader)
    (sortLiquidity : StdSort Liquidity),
    Ranking (encode ms) (isAccepted (encode ms) (loadFile (encode ms)).val.vAckMsg)
        (loadFile (encode ms)).val.vEntryMsg
        (linkFile (encode ms) sortActive sortLiquidity (loadFile (encode ms)).val).ActiveVector ∧
      Ranking (encode ms) (·.isGFD (encode ms)) (loadFile (encode ms)).val.vEntryMsg
        (linkFile (encode ms) sortActive sortLiquidity
          (loadFile (encode ms)).val).LiquidityVector := by
  intro h
  have hlt := (h largeOrders .insertion .insertion).1.total_lt [84, 84, 84]
  have htotal : totalQty (encode largeOrders)
      (isAccepted (encode largeOrders) (loadFile (encode largeOrders)).val.vAckMsg)
      (loadFile (encode largeOrders)).val.vEntryMsg [84, 84, 84] = 2 ^ 32 := by decide +kernel
  rw [htotal] at hlt
  exact absurd hlt (Nat.lt_irrefl _)

end LinuxProgram.ProcessOrder
