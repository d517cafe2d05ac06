import LinuxProgram.Lib.Loops
import LinuxProgram.ProcessOrder.Rankings

/-!
# ShowResult, and streams that are not complete

`ParseFile` looks for the order entry of a fill with `operator[]`, which inserts a null
pointer where there is none, and follows the pointer; `ShowResult` prints the first trader
of both rankings, whether there is one or not.

* `showResult` — what is printed, or `none` where a vector has no first element.
* `Processed` — the passes come to their end, and `ParseFile` has not inserted anything.
* `processed_iff` — so it is exactly if the stream is `CompleteStream`.
* `processed_unknown` — a stream of one fill.
* `main` — the whole program, on a `Platform`.  Where control does not come back from a
  function that runs off its end, the program does not get to `ShowResult`.
* `main_isSome_iff` — the program prints its results exactly if control comes back and the
  stream is complete, and `main_of_returns` — what it prints then is that of the passes above.
-/

namespace LinuxProgram.ProcessOrder

open Lib

/-- **What `ShowResult` prints.** -/
structure Shown where
  TotalCnt : UInt32
  EntryMsgCnt : UInt32
  AckMsgCnt : UInt32
  FillMsgCnt : UInt32
  MostActiveTrader : Bytes
  MostLiquidity : Bytes
  Trades : List (Bytes × UInt64)

/-- **`ShowResult`.**  The counters of the messages have counted the objects. -/
def showResult (s : Loaded) (linked : Linked) (parsed : Parsed) : Option Shown := do
  let active ← linked.ActiveVector.head?
  let liquid ← linked.LiquidityVector.head?
  return {
    TotalCnt := s.TotalCnt
    EntryMsgCnt := .ofNat s.vEntryMsg.length
    AckMsgCnt := .ofNat s.vAckMsg.length
    FillMsgCnt := .ofNat s.vFillMsg.length
    MostActiveTrader := cString active.TraderName
    MostLiquidity := cString liquid.TraderName
    Trades := parsed.TradesMap.entries.map fun Trades => (cString Trades.1, Trades.2) }

section Passes

variable (f : Mapping) (sortActive : StdSort ActiveTrader) (sortLiquidity : StdSort Liquidity)
  (s : Loaded)

/-- **The passes behind `LoadFile` come to their end**, and `ParseFile` leaves the map of the
order entries as it was. -/
def Processed : Prop :=
  let linked := linkFile f sortActive sortLiquidity s
  ∃ parsed, parseFile f linked s = some parsed ∧
    parsed.ClientID2OrderEntry = linked.ClientID2OrderEntry ∧
      (showResult s linked parsed).isSome

/-- **A complete stream**: every fill has the client id of an order entry as its order id, and
there are an order that is accepted and one that is good for the day. -/
structure CompleteStream : Prop where
  known : ∀ x ∈ s.vFillMsg, ∃ e ∈ s.vEntryMsg,
    e.GetClientID f = OrderID2ClientID (x.GetOrderID f)
  accepted : ∃ e ∈ s.vEntryMsg, isAccepted f s.vAckMsg e = true
  goodForDay : ∃ e ∈ s.vEntryMsg, e.isGFD f = true

end Passes

variable {f : Mapping} {s : Loaded} {sortActive : StdSort ActiveTrader}
  {sortLiquidity : StdSort Liquidity}

/-! ### The map of the order entries -/

/-- The map has no null pointers, and has the client ids of the order entries. -/
theorem find_linked (f : Mapping) (sortActive : StdSort ActiveTrader)
    (sortLiquidity : StdSort Liquidity) (s : Loaded) (client_id : UInt64) :
    (linkFile f sortActive sortLiquidity s).ClientID2OrderEntry.find? client_id =
      (s.vEntryMsg.reverse.find? fun e => e.GetClientID f = client_id).map some := by
  have hids : (linkFile f sortActive sortLiquidity s).ClientID2OrderEntry =
      s.vEntryMsg.foldl (fun m e => m.upsert (e.GetClientID f) none fun _ => some e) .empty :=
    linkLoop_ids s.vAckMsg s.vEntryMsg _
  rw [hids, SortedMap.find?_assign (fun e : OrderEntryMsgClass => e.GetClientID f) some,
    SortedMap.find?_empty, Option.or_none]

/-! ### ParseFile -/

/-- A fill whose pointer is there leaves the map as it is. -/
theorem parseFill_found {p : Parsed} {x : OrderFillMsgClass} {e : OrderEntryMsgClass}
    (h : p.ClientID2OrderEntry.find? (OrderID2ClientID (x.GetOrderID f)) = some (some e)) :
    ∃ t, parseFill f p x = some ⟨p.ClientID2OrderEntry, t⟩ := by
  have hsame : p.ClientID2OrderEntry.upsert (OrderID2ClientID (x.GetOrderID f)) none id =
      p.ClientID2OrderEntry := SortedMap.upsert_id h none
  simp only [parseFill, hsame, h, Option.join_some]
  exact ⟨_, rfl⟩

/-- A fill leaves the map as it is, if it leaves one at all. -/
theorem parseFill_ids {p p' : Parsed} {x : OrderFillMsgClass} (h : parseFill f p x = some p') :
    p'.ClientID2OrderEntry = p.ClientID2OrderEntry := by
  cases hfind : (p.ClientID2OrderEntry.find? (OrderID2ClientID (x.GetOrderID f))).join with
  | none =>
      rw [parseFill_null hfind] at h
      cases h
  | some e =>
      obtain ⟨t, hstep⟩ := parseFill_found (Option.join_eq_some_iff.mp hfind)
      rw [hstep] at h
      obtain rfl := Option.some.inj h
      rfl

/-- **`ParseFile` leaves the map as it was**, if it comes to its end. -/
theorem parseFile_ids {linked : Linked} {parsed : Parsed} (h : parseFile f linked s = some parsed) :
    parsed.ClientID2OrderEntry = linked.ClientID2OrderEntry := by
  have hrun : s.vFillMsg.foldlM (parseFill f) ⟨linked.ClientID2OrderEntry, .empty⟩ =
      some parsed := h
  refine foldlM_invariant (I := fun p => p.ClientID2OrderEntry = linked.ClientID2OrderEntry)
    (fun x _ p p' hp hstep => ?_) hrun rfl
  exact (parseFill_ids hstep).trans hp

/-- **The loop over the fills** comes to its end exactly if all pointers are there. -/
theorem parseLoop_isSome {ids : ID2Entry} (hids : ∀ client_id, ids.find? client_id ≠ some none)
    (xs : List OrderFillMsgClass) (t : TradesPerInstrument) :
    (xs.foldlM (parseFill f) ⟨ids, t⟩).isSome ↔
      ∀ x ∈ xs, (ids.find? (OrderID2ClientID (x.GetOrderID f))).isSome := by
  induction xs generalizing t with
  | nil => exact iff_of_true rfl (List.forall_mem_nil _)
  | cons x xs ih =>
      rw [List.foldlM_cons, List.forall_mem_cons]
      cases hfind : ids.find? (OrderID2ClientID (x.GetOrderID f)) with
      | none =>
          have hnull : parseFill f ⟨ids, t⟩ x = none :=
            parseFill_null (congrArg Option.join hfind)
          rw [hnull]
          exact iff_of_false (fun h => absurd h Bool.false_ne_true) fun h =>
            absurd h.1 Bool.false_ne_true
      | some pointer =>
          cases pointer with
          | none => exact absurd hfind (hids _)
          | some e =>
              obtain ⟨t', hstep⟩ := parseFill_found (p := ⟨ids, t⟩) hfind
              rw [hstep, Option.isSome_some, eq_self, true_and]
              exact ih t'

/-! ### ShowResult -/

/-- A ranking has a first trader exactly if an order entry counts. -/
theorem head?_rank (f : Mapping) (counts : OrderEntryMsgClass → Bool)
    (es : List OrderEntryMsgClass) (sort : StdSort TraderQty) :
    (sort.run byQty (rank f counts es)).head?.isSome ↔ ∃ e ∈ es, counts e = true := by
  have hperm := sort.perm strictWeak_byQty (rank f counts es)
  rw [List.isSome_head?]
  constructor
  · intro h
    obtain ⟨t, ht⟩ := List.exists_mem_of_ne_nil _ h
    have htag := List.mem_map_of_mem (f := TraderQty.tag) (hperm.subset ht)
    obtain ⟨e, he, hcounted⟩ := (mem_rank f counts es t.tag).mp htag
    exact ⟨e, he, (Option.ite_none_right_eq_some.mp hcounted).1⟩
  · rintro ⟨e, he, hcounts⟩
    have htag := (mem_rank f counts es e.tag).mpr ⟨e, he, if_pos hcounts⟩
    obtain ⟨t, ht, -⟩ := List.mem_map.mp htag
    exact List.ne_nil_of_mem (hperm.symm.subset ht)

theorem showResult_isSome {linked : Linked} {parsed : Parsed} :
    (showResult s linked parsed).isSome ↔
      linked.ActiveVector.head?.isSome ∧ linked.LiquidityVector.head?.isSome := by
  unfold showResult
  cases linked.ActiveVector.head? with
  | none => exact iff_of_false nofun fun h => nomatch h.1
  | some active =>
      cases linked.LiquidityVector.head? with
      | none => exact iff_of_false nofun fun h => nomatch h.2
      | some liquid => exact iff_of_true rfl ⟨rfl, rfl⟩

/-- A fill has a pointer exactly if its order id is a client id. -/
theorem isSome_find_linked (client_id : UInt64) :
    ((linkFile f sortActive sortLiquidity s).ClientID2OrderEntry.find? client_id).isSome ↔
      ∃ e ∈ s.vEntryMsg, e.GetClientID f = client_id := by
  rw [find_linked, Option.isSome_map, List.find?_isSome]
  simp only [List.mem_reverse, decide_eq_true_eq]

/-- `ParseFile` comes to its end exactly if there is an order entry for every fill. -/
theorem parseFile_isSome (f : Mapping) (sortActive : StdSort ActiveTrader)
    (sortLiquidity : StdSort Liquidity) (s : Loaded) :
    (parseFile f (linkFile f sortActive sortLiquidity s) s).isSome ↔
      ∀ x ∈ s.vFillMsg, ∃ e ∈ s.vEntryMsg, e.GetClientID f = OrderID2ClientID (x.GetOrderID f) := by
  have hnonnull : ∀ client_id,
      (linkFile f sortActive sortLiquidity s).ClientID2OrderEntry.find? client_id ≠ some none := by
    intro client_id hnull
    rw [find_linked] at hnull
    obtain ⟨e, -, he⟩ := Option.map_eq_some_iff.mp hnull
    cases he
  refine (parseLoop_isSome hnonnull s.vFillMsg .empty).trans (forall₂_congr fun x _ => ?_)
  exact isSome_find_linked _

/-- `ShowResult` finds two traders exactly if an order is accepted and one is good for the day. -/
theorem showResult_linked (f : Mapping) (sortActive : StdSort ActiveTrader)
    (sortLiquidity : StdSort Liquidity) (s : Loaded) (parsed : Parsed) :
    (showResult s (linkFile f sortActive sortLiquidity s) parsed).isSome ↔
      (∃ e ∈ s.vEntryMsg, isAccepted f s.vAckMsg e = true) ∧
        ∃ e ∈ s.vEntryMsg, e.isGFD f = true := by
  rw [showResult_isSome, activeVector_eq, liquidityVector_eq]
  exact and_congr (head?_rank f _ _ _) (head?_rank f _ _ _)

/-- **The passes come to their end** exactly if the stream is complete.  This is about the passes
behind `LoadFile` and leaves the missing `return` of `ParseFile` to `main` below. -/
theorem processed_iff (f : Mapping) (sortActive : StdSort ActiveTrader)
    (sortLiquidity : StdSort Liquidity) (s : Loaded) :
    Processed f sortActive sortLiquidity s ↔ CompleteStream f s := by
  constructor
  · rintro ⟨parsed, hrun, -, hshown⟩
    obtain ⟨haccepted, hgood⟩ := (showResult_linked ..).mp hshown
    refine ⟨?_, haccepted, hgood⟩
    exact (parseFile_isSome ..).mp (Option.isSome_of_eq_some hrun)
  · rintro ⟨hknown, haccepted, hgood⟩
    obtain ⟨parsed, hrun⟩ := Option.isSome_iff_exists.mp
      ((parseFile_isSome f sortActive sortLiquidity s).mpr hknown)
    exact ⟨parsed, hrun, parseFile_ids hrun, (showResult_linked ..).mpr ⟨haccepted, hgood⟩⟩

/-- A fill, and no order entry. -/
def unknownFill : List Message := [filled 1 5]

set_option maxRecDepth 100000 in
/-- **A fill of an unknown order.** -/
theorem processed_unknown : ¬ ∀ (ms : List Message) (sortActive : StdSort ActiveTrader)
    (sortLiquidity : StdSort Liquidity),
    Processed (encode ms) sortActive sortLiquidity (loadFile (encode ms)).val := by
  intro h
  have hnone : (parseFile (encode unknownFill) (linkFile (encode unknownFill) .insertion .insertion
      (loadFile (encode unknownFill)).val) (loadFile (encode unknownFill)).val).isNone := by
    decide +kernel
  obtain ⟨parsed, hrun, -⟩ := h unknownFill .insertion .insertion
  rw [hrun] at hnone
  nomatch hnone

/-! ### The program -/

/-- **What the source leaves open**: the sorting routine behind each call of `sort`, and whether
control comes back from a function with a result type that ends without a `return`.  C++ leaves
such a call undefined; the compiler may as well put a trap there, or nothing at all. -/
structure Platform where
  sortActive : StdSort ActiveTrader
  sortLiquidity : StdSort Liquidity
  returns : Bool

/-- **Control comes back** from a function, given what it returns if it gets to a `return`. -/
def Platform.comesBack (env : Platform) (result : Option ℤ) : Option Unit :=
  guard (result.isSome || env.returns)

/-- **`main`**, with what it prints.  There is nothing where the language does not say what comes:
behind a function that does not come back, at a null pointer and at the first element of an empty
vector. -/
def main (env : Platform) (f : Mapping) : Option Shown := do
  let loaded := (loadFile f).val
  env.comesBack (loadReturn f 0)
  let linked := linkFile f env.sortActive env.sortLiquidity loaded
  let parsed ← parseFile f linked loaded
  -- `ParseFile` has no `return` anywhere
  env.comesBack none
  showResult loaded linked parsed

/-- **Where control comes back**, `main` is the three passes and `ShowResult`. -/
theorem main_of_returns {env : Platform} (h : env.returns = true) (f : Mapping) :
    main env f = (processFile f env.sortActive env.sortLiquidity).bind
      (showResult (loadFile f).val
        (linkFile f env.sortActive env.sortLiquidity (loadFile f).val)) := by
  have hback : ∀ result, env.comesBack result = some () := by
    intro result
    rw [Platform.comesBack, h, Bool.or_true]
    rfl
  unfold main processFile
  rw [hback, hback]
  rfl

/-- Where it does not, there is no result: `ParseFile` never gets to a `return`. -/
theorem main_eq_none {env : Platform} (h : env.returns = false) (f : Mapping) :
    main env f = none := by
  have hback : env.comesBack none = none := by
    rw [Platform.comesBack, h]
    rfl
  unfold main
  rw [hback]
  cases env.comesBack (loadReturn f 0) with
  | none => rfl
  | some _ =>
      cases hparse : parseFile f (linkFile f env.sortActive env.sortLiquidity (loadFile f).val)
        (loadFile f).val with
      | none =>
          dsimp only
          rw [hparse]
          rfl
      | some _ =>
          dsimp only
          rw [hparse]
          rfl

/-- **The program prints its results** exactly if control comes back from its functions and the
stream is complete. -/
theorem main_isSome_iff (env : Platform) (f : Mapping) :
    (main env f).isSome ↔ env.returns = true ∧ CompleteStream f (loadFile f).val := by
  cases hreturns : env.returns with
  | false =>
      rw [main_eq_none hreturns]
      exact iff_of_false Bool.false_ne_true fun h => Bool.false_ne_true h.1
  | true =>
      rw [main_of_returns hreturns, eq_self, true_and]
      constructor
      · intro hsome
        obtain ⟨shown, hshown⟩ := Option.isSome_iff_exists.mp hsome
        obtain ⟨parsed, hrun, hshow⟩ := Option.bind_eq_some_iff.mp hshown
        obtain ⟨haccepted, hgood⟩ := (showResult_linked ..).mp (Option.isSome_of_eq_some hshow)
        exact ⟨(parseFile_isSome ..).mp (Option.isSome_of_eq_some hrun), haccepted, hgood⟩
      · rintro ⟨hknown, haccepted, hgood⟩
        obtain ⟨parsed, hrun⟩ := Option.isSome_iff_exists.mp
          ((parseFile_isSome f env.sortActive env.sortLiquidity _).mpr hknown)
        rw [show processFile f env.sortActive env.sortLiquidity = some parsed from hrun]
        exact (showResult_linked ..).mpr ⟨haccepted, hgood⟩

end LinuxProgram.ProcessOrder
