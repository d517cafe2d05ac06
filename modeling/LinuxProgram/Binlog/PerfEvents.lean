import LinuxProgram.Lib.Loops
import LinuxProgram.Lib.Tally

/-!
# PerfEvents

`perf.h` opens counters as a group.  The kernel reads the group in an order of its own, and
`matchEvent` stores for each counter where it is in that order, so that `readEvent` prints
the values in the order the counters were opened in.  `mIndexMap` only has something
reserved, and its size stays 0.

* `PerfEvents`, `openEvent`, `matchEvent`, `readEvent` — the class.
* `matchEvent_prints` — as long as the places are in what is reserved, the values come out
  in order.
* `InOrder` — in addition, `mIndexMap` is written at places that it has.
* `matchEvent_iff` — it is not, unless there is no counter: once an event is opened, never.
* `matchEvent_one` — a single counter.
-/

namespace LinuxProgram.Binlog

open Lib

/-- An entry of `read_format`. -/
structure PerfValue where
  value : UInt64
  id : UInt64
  deriving DecidableEq, Repr

/-- **`read` of a group**, `nr` and its entries, which fails if the buffer is too small. -/
def readGroup (group : List PerfValue) (size : ℕ) : Option (List PerfValue) :=
  if 8 + 16 * group.length ≤ size then some group else none

/-- **`mIndexMap`**, whose capacity stays what the constructor reserves. -/
structure IndexVector where
  size : ℕ
  storage : Vector ℕ 128

/-- `mIndexMap[i] = ind`, which does not look at the size.  `none` is a write outside of the
storage. -/
def IndexVector.store (v : IndexVector) (i ind : ℕ) : Option IndexVector :=
  if h : i < 128 then some { v with storage := v.storage.set i ind } else none

/-- **The class.** -/
structure PerfEvents where
  mIndexMap : IndexVector
  mGroupFD : ℤ
  mFDs : List ℤ
  mIDs : List UInt64

namespace PerfEvents

/-- The constructor.  What is reserved and `mGroupFD` are not initialised. -/
def new (memory : Vector ℕ 128) (fd : ℤ) : PerfEvents where
  mIndexMap := { size := 0, storage := memory }
  mGroupFD := fd
  mFDs := []
  mIDs := []

/-- A call of `open`, with what the system calls return in it. -/
structure Opening where
  isGroupLeader : Bool
  fd : ℤ
  id : Option UInt64

/-- **`open`**.  `none` is `exit`. -/
def openEvent (s : PerfEvents) (o : Opening) : Option PerfEvents :=
  let mGroupFD := if o.isGroupLeader then o.fd else s.mGroupFD
  if o.fd = -1 then none
  else o.id.map fun id => { s with mGroupFD, mFDs := s.mFDs ++ [o.fd], mIDs := s.mIDs ++ [id] }

/-- **Opened counters.** -/
def opened (memory : Vector ℕ 128) (fd : ℤ) (os : List Opening) : Option PerfEvents :=
  os.foldlM openEvent (new memory fd)

/-- What `matchEvent` leaves, and the places of `mIndexMap` it has written. -/
structure Outcome where
  ret : Bool
  events : PerfEvents
  written : List ℕ
  printed : List UInt64

local instance lessLaws : ComparatorLaws (@less UInt64 _ _) := inferInstance

/-- **`tmpMap`**, from the ids to their indices. -/
abbrev TmpMap := SortedMap (@less UInt64 _ _) ℕ

def tmpMap (mIDs : List UInt64) : TmpMap :=
  mIDs.zipIdx.foldl (fun m e => m.upsert e.1 0 fun _ => e.2) .empty

/-- The state of the second loop of `matchEvent`. -/
structure Matching where
  map : TmpMap
  mIndexMap : IndexVector
  written : List ℕ

/-- **`mIndexMap[ tmpMap[entry.id] ] = ind`**. -/
def matchEntry (m : Matching) (entry : PerfValue) (ind : ℕ) : Option Matching :=
  -- `operator[]` inserts 0 for an id that is not there
  let map := m.map.upsert entry.id 0 id
  let i := (map.find? entry.id).getD 0
  (m.mIndexMap.store i ind).map fun mIndexMap => { map, mIndexMap, written := m.written ++ [i] }

/-- **`readEvent`**, the values it prints.  The result of `read` is not looked at, and `buf`
stays what it is if it fails. -/
def readEvent (s : PerfEvents) (buf group : List PerfValue) : Option (List UInt64) :=
  let rf := (readGroup group 4096).getD buf
  (List.range s.mIDs.length).mapM fun ind => do
    let i ← s.mIndexMap.storage[ind]?
    let entry ← rf[i]?
    some entry.value

/-- **`matchEvent`**, with the group at its own call of `read` and at that of `readEvent`.
`none` is an access outside of the storage of `mIndexMap` or the buffer. -/
def matchEvent (s : PerfEvents) (group group' : List PerfValue) : Option Outcome :=
  match readGroup group 4096 with
  | none => some { ret := false, events := s, written := [], printed := [] }
  | some rf => do
      let m ← (List.range rf.length).foldlM
        (fun m ind => rf[ind]?.bind fun entry => matchEntry m entry ind)
        ⟨tmpMap s.mIDs, s.mIndexMap, []⟩
      let events := { s with mIndexMap := m.mIndexMap }
      let printed ← events.readEvent rf group'
      some { ret := true, events, written := m.written, printed }

/-- **A group** that lists ids with values. -/
def group (listing : List UInt64) (value : UInt64 → UInt64) : List PerfValue :=
  listing.map fun id => { value := value id, id }

variable {mIDs listing : List UInt64} {s : PerfEvents} {m m' : Matching} {entry : PerfValue}
  {i ind : ℕ}

/-! ### Matching -/

/-- The ids are found at their indices. -/
theorem find?_tmpMap (hn : mIDs.Nodup) {id : UInt64} (hid : id ∈ mIDs) :
    (tmpMap mIDs).find? id = some (mIDs.idxOf id) := by
  have hfind : (mIDs.zipIdx.reverse.find? fun e => e.1 = id) = some (id, mIDs.idxOf id) := by
    have hmem : (id, mIDs.idxOf id) ∈ mIDs.zipIdx.reverse := by
      rw [List.mem_reverse, List.mk_mem_zipIdx_iff_getElem?,
        List.getElem?_eq_getElem (List.idxOf_lt_length_of_mem hid), List.getElem_idxOf]
    have hsome : (mIDs.zipIdx.reverse.find? fun e => e.1 = id).isSome := by
      rw [List.find?_isSome]
      exact ⟨_, hmem, decide_eq_true rfl⟩
    obtain ⟨e, he⟩ := Option.isSome_iff_exists.mp hsome
    have hkey := List.find?_some he
    rw [decide_eq_true_eq] at hkey
    have hplace := List.mem_of_find?_eq_some he
    rw [List.mem_reverse, ← Prod.eta e, List.mk_mem_zipIdx_iff_getElem?] at hplace
    obtain ⟨hlt, hget⟩ := List.getElem?_eq_some_iff.mp hplace
    have hindex : mIDs.idxOf id = e.2 := by
      rw [← hkey, ← hget]
      exact hn.idxOf_getElem e.2 hlt
    rw [he, hindex, ← hkey]
  rw [tmpMap, SortedMap.find?_assign, hfind]
  rfl

theorem matchEntry_eq (hfind : m.map.find? entry.id = some i) (hi : i < 128) :
    matchEntry m entry ind = some
      { map := m.map
        mIndexMap := { m.mIndexMap with storage := m.mIndexMap.storage.set i ind }
        written := m.written ++ [i] } := by
  have hmap : m.map.upsert entry.id 0 id = m.map := SortedMap.upsert_id hfind 0
  simp only [matchEntry, hmap, hfind, Option.getD_some, IndexVector.store, dif_pos hi,
    Option.map_some]

theorem written_length (h : matchEntry m entry ind = some m') :
    m'.written.length = m.written.length + 1 := by
  obtain ⟨v, -, rfl⟩ := Option.map_eq_some_iff.mp h
  exact List.length_append

/-- **The loop of `matchEvent`**: the place of an id holds where the id is listed. -/
theorem foldlM_matchEntry (slot : UInt64 → ℕ) (es : List PerfValue)
    (hfind : ∀ e ∈ es, m.map.find? e.id = some (slot e.id)) (hslot : ∀ e ∈ es, slot e.id < 128)
    (hn : (es.map fun e => slot e.id).Nodup) (k : ℕ) :
    ∃ m', (es.zipIdx k).foldlM (fun m e => matchEntry m e.1 e.2) m = some m' ∧
      m'.written = m.written ++ es.map (fun e => slot e.id) ∧
      (∀ j ∉ es.map (fun e => slot e.id),
        m'.mIndexMap.storage[j]? = m.mIndexMap.storage[j]?) ∧
      ∀ i (hi : i < es.length), m'.mIndexMap.storage[slot es[i].id]? = some (k + i) := by
  induction es generalizing m k with
  | nil =>
      refine ⟨m, rfl, (List.append_nil _).symm, fun _ _ => rfl, ?_⟩
      intro i hi
      nomatch hi
  | cons e es ih =>
      rw [List.forall_mem_cons] at hfind hslot
      rw [List.map_cons, List.nodup_cons] at hn
      obtain ⟨m', hfold, hwritten, hframe, hplace⟩ :=
        ih (m := ⟨m.map, { m.mIndexMap with
          storage := m.mIndexMap.storage.set (slot e.id) k hslot.1 }, m.written ++ [slot e.id]⟩)
          hfind.2 hslot.2 hn.2 (k + 1)
      refine ⟨m', ?_, ?_, ?_, ?_⟩
      · rw [List.zipIdx_cons, List.foldlM_cons, matchEntry_eq hfind.1 hslot.1]
        exact hfold
      · rw [hwritten, List.append_assoc]
        rfl
      · intro j hj
        rw [List.map_cons, List.mem_cons, not_or] at hj
        rw [hframe j hj.2]
        exact Vector.getElem?_set_ne hslot.1 (Ne.symm hj.1)
      · intro i hi
        cases i with
        | zero =>
            rw [List.getElem_cons_zero, hframe _ hn.1]
            exact Vector.getElem?_set_self hslot.1
        | succ i =>
            rw [List.getElem_cons_succ, hplace i (Nat.lt_of_succ_lt_succ hi)]
            congr 1
            omega

/-! ### What is printed -/

theorem readGroup_eq {es : List PerfValue} (h : es.length ≤ 128) : readGroup es 4096 = some es :=
  if_pos (by omega)

theorem length_group (listing : List UInt64) (value : UInt64 → UInt64) :
    (group listing value).length = listing.length := List.length_map _

/-- **`mIndexMap` fits a listing**: at the index of each id is where the id is listed. -/
def Matched (s : PerfEvents) (listing : List UInt64) : Prop :=
  ∀ ind (h : ind < s.mIDs.length),
    ∃ j : ℕ, s.mIndexMap.storage[ind]? = some j ∧ listing[j]? = some s.mIDs[ind]

theorem map_eq_map_range (mIDs : List UInt64) (second : UInt64 → UInt64) :
    mIDs.map second = (List.range mIDs.length).map fun ind => second (mIDs[ind]?.getD 0) := by
  apply List.ext_getElem
  · rw [List.length_map, List.length_map, List.length_range]
  · intro i hi _
    rw [List.length_map] at hi
    rw [List.getElem_map, List.getElem_map, List.getElem_range, List.getElem?_eq_getElem hi,
      Option.getD_some]

theorem readEvent_of_matched (h : s.Matched listing) (hroom : listing.length ≤ 128)
    (buf : List PerfValue) (second : UInt64 → UInt64) :
    s.readEvent buf (group listing second) = some (s.mIDs.map second) := by
  rw [readEvent, readGroup_eq (by rw [length_group]; exact hroom), Option.getD_some,
    map_eq_map_range]
  apply mapM_of_forall
  intro ind hind
  have hlt := List.mem_range.mp hind
  obtain ⟨j, hstored, hlisted⟩ := h ind hlt
  have hentry : (group listing second)[j]? = some ⟨second s.mIDs[ind], s.mIDs[ind]⟩ := by
    rw [group, List.getElem?_map, hlisted, Option.map_some]
  simp only [hstored, hentry, Option.bind_eq_bind, Option.bind_some,
    List.getElem?_eq_getElem hlt, Option.getD_some]

/-- The indices of the ids, in the order of a listing. -/
theorem map_idxOf_perm (hn : mIDs.Nodup) (hperm : listing.Perm mIDs) :
    (listing.map fun id => mIDs.idxOf id).Perm (List.range mIDs.length) := by
  have hrange : mIDs.map (fun id => mIDs.idxOf id) = List.range mIDs.length := by
    apply List.ext_getElem
    · rw [List.length_map, List.length_range]
    · intro i hi _
      rw [List.length_map] at hi
      rw [List.getElem_map, List.getElem_range, hn.idxOf_getElem i hi]
  rw [← hrange]
  exact hperm.map _

/-- **The loop of `matchEvent`** for distinct ids that have room. -/
theorem matched_of_perm (hn : s.mIDs.Nodup) (hperm : listing.Perm s.mIDs)
    (hroom : s.mIDs.length ≤ 128) (first : UInt64 → UInt64) :
    ∃ m, (group listing first).zipIdx.foldlM (fun m e => matchEntry m e.1 e.2)
        ⟨tmpMap s.mIDs, s.mIndexMap, []⟩ = some m ∧
      m.written = listing.map (fun id => s.mIDs.idxOf id) ∧
      ({ s with mIndexMap := m.mIndexMap } : PerfEvents).Matched listing := by
  have hslots : (group listing first).map (fun e => s.mIDs.idxOf e.id) =
      listing.map fun id => s.mIDs.idxOf id := List.map_map
  have hmem : ∀ e ∈ group listing first, e.id ∈ s.mIDs := by
    intro e he
    obtain ⟨id, hid, rfl⟩ := List.mem_map.mp he
    exact hperm.mem_iff.mp hid
  obtain ⟨m, hfold, hwritten, -, hplace⟩ :=
    foldlM_matchEntry (m := ⟨tmpMap s.mIDs, s.mIndexMap, []⟩) (fun id => s.mIDs.idxOf id)
      (group listing first) (fun e he => find?_tmpMap hn (hmem e he))
      (fun e he => (List.idxOf_lt_length_of_mem (hmem e he)).trans_le hroom)
      (by rw [hslots]; exact (map_idxOf_perm hn hperm).nodup_iff.mpr List.nodup_range) 0
  rw [List.nil_append, hslots] at hwritten
  refine ⟨m, hfold, hwritten, ?_⟩
  intro ind (hlt : ind < s.mIDs.length)
  -- where the kernel lists the id that was opened as number `ind`
  obtain ⟨j, hj, hjeq⟩ := List.getElem_of_mem (hperm.mem_iff.mpr (List.getElem_mem hlt))
  have hgroup : j < (group listing first).length := by rw [length_group]; exact hj
  have hstored := hplace j hgroup
  have hid : (group listing first)[j].id = s.mIDs[ind] := by
    simp only [group, List.getElem_map]
    exact hjeq
  rw [hid, hn.idxOf_getElem ind hlt, Nat.zero_add] at hstored
  exact ⟨j, hstored, (List.getElem?_eq_getElem hj).trans (congrArg some hjeq)⟩

/-- **The values come out in the order of opening**, as long as what is reserved has room
for their places, although `mIndexMap` does not have these places. -/
theorem matchEvent_prints (hn : s.mIDs.Nodup) (hperm : listing.Perm s.mIDs)
    (hroom : s.mIDs.length ≤ 128) (first second : UInt64 → UInt64) :
    ∃ o, s.matchEvent (group listing first) (group listing second) = some o ∧
      o.written.Perm (List.range s.mIDs.length) ∧ o.printed = s.mIDs.map second := by
  have hlisting : listing.length ≤ 128 := by rw [hperm.length_eq]; exact hroom
  obtain ⟨m, hfold, hwritten, hmatched⟩ := matched_of_perm hn hperm hroom first
  refine ⟨⟨true, { s with mIndexMap := m.mIndexMap }, m.written, s.mIDs.map second⟩, ?_, ?_, rfl⟩
  · have hread : readGroup (group listing first) 4096 = some (group listing first) :=
      readGroup_eq (by rw [length_group]; exact hlisting)
    have hprinted := readEvent_of_matched hmatched hlisting (group listing first) second
    simp only [matchEvent, hread, foldlM_range_getElem? matchEntry, hfold, Option.bind_eq_bind,
      Option.bind_some, hprinted]
  · rw [hwritten]
    exact map_idxOf_perm hn hperm

/-! ### What is written -/

/-- **What is asked for**: `mIndexMap` is written at places below its size, and the values
are printed in the order of opening. -/
def InOrder (s : PerfEvents) (listing : List UInt64) (first second : UInt64 → UInt64) : Prop :=
  ∃ o, s.matchEvent (group listing first) (group listing second) = some o ∧
    (∀ i ∈ o.written, i < s.mIndexMap.size) ∧ o.printed = s.mIDs.map second

/-- The size stays 0. -/
theorem size_opened {memory : Vector ℕ 128} {fd : ℤ} {os : List Opening}
    (h : opened memory fd os = some s) : s.mIndexMap.size = 0 := by
  refine foldlM_invariant (I := fun s => s.mIndexMap.size = 0) ?_ h rfl
  intro o _ s s' hs hopen
  unfold openEvent at hopen
  dsimp only at hopen
  split_ifs at hopen
  all_goals
    obtain ⟨id, -, rfl⟩ := Option.map_eq_some_iff.mp hopen
    exact hs

/-- **`mIndexMap` is written outside of its size**, unless there is no counter: the calls of
`matchEvent` are right as long as no event has been opened, and never after that.  The group that
is read is that of the descriptors that were opened, so that the kernel lists exactly the ids in
`mIDs`, in an order of its own. -/
theorem matchEvent_iff {memory : Vector ℕ 128} {fd : ℤ} {os : List Opening}
    (hopen : opened memory fd os = some s) (hn : s.mIDs.Nodup) (hperm : listing.Perm s.mIDs)
    (first second : UInt64 → UInt64) : s.InOrder listing first second ↔ s.mIDs = [] := by
  constructor
  · rintro ⟨o, hmatch, hinside, hprinted⟩
    rw [size_opened hopen] at hinside
    have hwritten : o.written = [] := by
      rw [List.eq_nil_iff_forall_not_mem]
      exact fun i hi => absurd (hinside i hi) (Nat.not_lt_zero i)
    unfold matchEvent at hmatch
    split at hmatch
    · -- nothing is read, and nothing printed
      obtain rfl := Option.some.inj hmatch
      exact List.map_eq_nil_iff.mp hprinted.symm
    · rename_i rf hread
      rw [Option.bind_eq_bind, Option.bind_eq_some_iff] at hmatch
      obtain ⟨m, hfold, hmatch⟩ := hmatch
      obtain ⟨printed, -, hmatch⟩ := Option.bind_eq_some_iff.mp hmatch
      obtain rfl := Option.some.inj hmatch
      rw [foldlM_range_getElem? matchEntry] at hfold
      have hcount := foldlM_measure (fun m : Matching => m.written.length)
        (fun _ _ _ h => written_length h) hfold
      have hrf : rf = group listing first := by
        unfold readGroup at hread
        split at hread
        · exact (Option.some.inj hread).symm
        · nomatch hread
      change m.written = [] at hwritten
      rw [hwritten, List.length_nil, List.length_zipIdx, hrf, length_group,
        hperm.length_eq] at hcount
      exact List.length_eq_zero_iff.mp (by omega)
  · intro hnil
    obtain ⟨o, hmatch, hwritten, hprinted⟩ :=
      matchEvent_prints hn hperm (by rw [hnil]; exact Nat.zero_le _) first second
    refine ⟨o, hmatch, ?_, hprinted⟩
    intro i hi
    rw [hnil] at hwritten
    nomatch hwritten.mem_iff.mp hi

/-- A counter with the id 7. -/
def oneCounter : PerfEvents where
  mIndexMap := { size := 0, storage := Vector.replicate 128 0 }
  mGroupFD := 3
  mFDs := [3]
  mIDs := [7]

theorem opened_oneCounter :
    opened (Vector.replicate 128 0) 0 [⟨true, 3, some 7⟩] = some oneCounter := rfl

theorem matchEvent_iff_one :
    oneCounter.InOrder [7] (fun _ => 5) (fun _ => 6) ↔ oneCounter.mIDs = [] :=
  matchEvent_iff opened_oneCounter (by decide) (List.Perm.refl [7]) _ _

/-- **A single counter**: its place is stored in `mIndexMap[0]`, and the size is 0. -/
theorem matchEvent_one : ¬ ∀ (memory : Vector ℕ 128) (fd : ℤ) (os : List Opening) (s : PerfEvents),
    opened memory fd os = some s → s.mIDs.Nodup → ∀ listing, listing.Perm s.mIDs →
      ∀ first second, s.InOrder listing first second := by
  intro h
  obtain ⟨o, hmatch, hinside, -⟩ := h (Vector.replicate 128 0) 0 [⟨true, 3, some 7⟩]
    oneCounter opened_oneCounter (by decide) [7] (List.Perm.refl [7]) (fun _ => 5) (fun _ => 6)
  obtain ⟨o', hmatch', hwritten, -⟩ := matchEvent_prints (s := oneCounter) (by decide)
    (List.Perm.refl [7]) (by decide) (fun _ => 5) (fun _ => 6)
  obtain rfl : o = o' := Option.some.inj (hmatch.symm.trans hmatch')
  exact absurd (hinside 0 (hwritten.mem_iff.mpr (by decide))) (Nat.lt_irrefl 0)

end PerfEvents

end LinuxProgram.Binlog
