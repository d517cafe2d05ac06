import LinuxProgram.Lib.Loops
import LinuxProgram.Lib.Ring
import LinuxProgram.Lib.StdSort

/-!
# The ring of Capacity_detect.cpp

The cells are linked in the order of random keys: sorted by their keys, each index is
linked to the one behind it, and the last to the first.  What is appended to `IndexMap`
behind the sort only ends the loop.

* `buildRing` — `main`, up to the links; `none` is a write outside of `DataSet`.
* `chase` — the endless loop of `main`, a number of passes.
* `IsCycle` — one cycle through all cells.
* `buildRing_cycle` — it is one, for all keys and all sorting routines.
-/

namespace LinuxProgram.Cache

open Lib

/-- **A cell**, as long as a cache line, of which only the link is read. -/
structure Foo where
  mNext : ℕ
  value : ℤ
deriving Repr, DecidableEq

/-- `DataSet[currentIndex].mNext = next`, or nothing where that is outside of the vector. -/
def setNext (DataSet : List Foo) (currentIndex next : ℕ) : Option (List Foo) :=
  if currentIndex < DataSet.length then
    some (DataSet.modify currentIndex fun foo => { foo with mNext := next })
  else none

/-- One pass of the loop that links the cells: the cell that was reached last gets a link to the
next one of `IndexMap`. -/
def linkCell (state : List Foo × ℕ) (entry : ℤ × ℕ) : Option (List Foo × ℕ) :=
  (setNext state.1 state.2 entry.2).map fun DataSet => (DataSet, entry.2)

/-- **`IndexMap`**, with the entry behind the sorted ones. -/
def indexMap (sort : StdSort (ℤ × ℕ)) (random : ℕ → ℤ) (eleCnt : ℕ) : List (ℤ × ℕ) :=
  let IndexMap := (List.range eleCnt).map fun index => (random index, index)
  sort.run (fun lhs rhs => lhs.1 > rhs.1) IndexMap ++ [(0, 0)]

/-- **`main`**, where `random index` is what the call for an index returns. -/
def buildRing (sort : StdSort (ℤ × ℕ)) (random : ℕ → ℤ) (eleCnt : ℕ) : Option (List Foo) := do
  let IndexMap := indexMap sort random eleCnt
  let DataSet := List.replicate eleCnt { mNext := 0, value := 0 }
  let Head := (← IndexMap[0]?).2
  -- `for(int i=1; i<IndexMap.size()-1; i++)`
  let (DataSet, currentIndex) ←
    (List.range' 1 (IndexMap.length - 1 - 1)).foldlM
      (fun state i => IndexMap[i]?.bind fun entry => linkCell state entry) (DataSet, Head)
  setNext DataSet currentIndex Head

/-- The link of a cell. -/
def links (DataSet : List Foo) (Current : ℕ) : Option ℕ := DataSet[Current]?.map Foo.mNext

/-- **`Current = pCacheLine[Current].mNext`**, a number of times: the cells visited, and
where it ends. -/
def chase (DataSet : List Foo) : ℕ → ℕ → Option (List ℕ × ℕ) := Ring.walk (links DataSet)

/-- **One cycle** through all cells: from every cell on the links visit each of them once and come
back. -/
structure IsCycle (DataSet : List Foo) (eleCnt : ℕ) : Prop where
  length : DataSet.length = eleCnt
  inside : ∀ foo ∈ DataSet, foo.mNext < eleCnt
  /-- From any index, `eleCnt` passes visit each index once and come back. -/
  visits : ∀ start < eleCnt, ∃ visited,
    chase DataSet eleCnt start = some (visited, start) ∧ visited.Perm (List.range eleCnt)

variable {DataSet DataSet' : List Foo} {currentIndex next eleCnt i : ℕ}

/-! ### Links -/

theorem setNext_spec (next : ℕ) (h : currentIndex < DataSet.length) :
    ∃ DataSet', setNext DataSet currentIndex next = some DataSet' ∧
      DataSet'.length = DataSet.length ∧
      links DataSet' = Function.update (links DataSet) currentIndex (some next) := by
  refine ⟨_, if_pos h, List.length_modify .., ?_⟩
  funext j
  unfold links
  by_cases hj : j = currentIndex
  · rw [hj, Function.update_self, List.getElem?_modify_eq, List.getElem?_eq_getElem h]
    rfl
  · rw [Function.update_of_ne hj, List.getElem?_modify_ne _ _ (Ne.symm hj)]

/-- **The loop** links along the entries it passes.  The induction is on those that are left, from
any cell on. -/
theorem foldlM_linkCell (DataSet : List Foo) (currentIndex : ℕ) (entries : List (ℤ × ℕ)) (k : ℕ)
    (hentries : ∀ e ∈ entries, e.2 < DataSet.length) (hcurrent : currentIndex < DataSet.length) :
    ∃ DataSet', (entries.zipIdx k).foldlM (fun state e => linkCell state e.1)
        (DataSet, currentIndex) =
          some (DataSet', (currentIndex :: entries.map Prod.snd).getLast (List.cons_ne_nil _ _)) ∧
      DataSet'.length = DataSet.length ∧
      links DataSet' = Ring.linkSeq (links DataSet) currentIndex (entries.map Prod.snd) := by
  induction entries generalizing DataSet currentIndex k with
  | nil => exact ⟨DataSet, rfl, rfl, rfl⟩
  | cons e entries ih =>
      rw [List.forall_mem_cons] at hentries
      obtain ⟨DataSet₁, hset, hlength, hlinks⟩ := setNext_spec e.2 hcurrent
      obtain ⟨DataSet₂, hfold, hlength₂, hlinks₂⟩ :=
        ih DataSet₁ e.2 (k + 1) (by rw [hlength]; exact hentries.2)
          (by rw [hlength]; exact hentries.1)
      refine ⟨DataSet₂, ?_, hlength₂.trans hlength, ?_⟩
      · rw [List.zipIdx_cons, List.foldlM_cons, linkCell, hset, Option.map_some,
          Option.bind_eq_bind, Option.bind_some, hfold]
        rfl
      · rw [hlinks₂, hlinks]
        rfl

/-! ### The ring -/

/-- The sorted entries, the first of which is the head. -/
theorem indexMap_cases (sort : StdSort (ℤ × ℕ)) (random : ℕ → ℤ) (h : 0 < eleCnt) :
    ∃ head rest, indexMap sort random eleCnt = head :: rest ++ [(0, 0)] ∧
      ((head :: rest).map Prod.snd).Perm (List.range eleCnt) := by
  have hperm := sort.perm (StrictWeak.ofKeyDesc (Prod.fst : ℤ × ℕ → ℤ))
    ((List.range eleCnt).map fun index => (random index, index))
  have hindices := hperm.map Prod.snd
  rw [List.map_map, show (Prod.snd ∘ fun index : ℕ => (random index, index)) = id from rfl,
    List.map_id] at hindices
  have hmap : indexMap sort random eleCnt = sort.run (fun lhs rhs => lhs.1 > rhs.1)
      ((List.range eleCnt).map fun index => (random index, index)) ++ [(0, 0)] := rfl
  rw [hmap]
  generalize sort.run _ _ = sorted at hindices ⊢
  cases sorted with
  | nil =>
      have hlength := hindices.length_eq
      rw [List.map_nil, List.length_nil, List.length_range] at hlength
      omega
  | cons head rest => exact ⟨head, rest, rfl, hindices⟩

theorem buildRing_isRing (sort : StdSort (ℤ × ℕ)) (random : ℕ → ℤ) (h : 0 < eleCnt) :
    ∃ DataSet order, buildRing sort random eleCnt = some DataSet ∧ DataSet.length = eleCnt ∧
      order.Perm (List.range eleCnt) ∧ Ring.IsRing (links DataSet) order := by
  obtain ⟨head, rest, hmap, hperm⟩ := indexMap_cases sort random h
  have hlt : ∀ e ∈ head :: rest, e.2 < eleCnt := fun e he =>
    List.mem_range.mp (hperm.mem_iff.mp (List.mem_map_of_mem he))
  rw [List.forall_mem_cons] at hlt
  have hzero : (List.replicate eleCnt (Foo.mk 0 0)).length = eleCnt := List.length_replicate
  obtain ⟨DataSet₁, hfold, hlength₁, hlinks₁⟩ :=
    foldlM_linkCell (List.replicate eleCnt ⟨0, 0⟩) head.2 rest 1 (by rw [hzero]; exact hlt.2)
      (by rw [hzero]; exact hlt.1)
  have hlast : (head.2 :: rest.map Prod.snd).getLast (List.cons_ne_nil _ _) < DataSet₁.length := by
    rw [hlength₁, hzero]
    exact List.mem_range.mp (hperm.mem_iff.mp (List.getLast_mem _))
  obtain ⟨DataSet₂, hset, hlength₂, hlinks₂⟩ := setNext_spec head.2 hlast
  refine ⟨DataSet₂, (head :: rest).map Prod.snd, ?_, ?_, hperm, ?_⟩
  · have hcount : (head :: rest ++ [(0, 0)]).length - 1 - 1 = rest.length := by
      rw [List.length_append, List.length_cons, List.length_singleton]
      omega
    have hloop := (foldlM_range'_getElem? (fun state entry _ => linkCell state entry) [head] rest
      [(0, 0)] (List.replicate eleCnt ⟨0, 0⟩, head.2)).trans hfold
    rw [List.length_singleton, List.singleton_append] at hloop
    have hhead : (head :: rest ++ [(0, 0)])[0]? = some head := rfl
    simp only [buildRing, hmap, hcount, hhead, hloop, Option.bind_eq_bind, Option.bind_some]
    exact hset
  · rw [hlength₂, hlength₁, hzero]
  · rw [hlinks₂, hlinks₁]
    exact Ring.isRing_linkSeq (hperm.nodup_iff.mpr List.nodup_range)

/-- **The links are one cycle** through all cells, for all keys.  Sorting the keys only permutes the
numbers of the cells, so that the loop passes each of them once, also where keys are equal. -/
theorem buildRing_cycle (sort : StdSort (ℤ × ℕ)) (random : ℕ → ℤ) (eleCnt : ℕ) (h : 0 < eleCnt) :
    ∃ DataSet, buildRing sort random eleCnt = some DataSet ∧ IsCycle DataSet eleCnt := by
  obtain ⟨DataSet, order, hbuild, hlength, hperm, hring⟩ := buildRing_isRing sort random h
  have hmem : ∀ x, x ∈ order ↔ x < eleCnt := fun x => hperm.mem_iff.trans List.mem_range
  have horder : order.length = eleCnt := hperm.length_eq.trans List.length_range
  refine ⟨DataSet, hbuild, hlength, ?_, ?_⟩
  · intro foo hfoo
    obtain ⟨i, hi, rfl⟩ := List.getElem_of_mem hfoo
    have hlink := hring i ((hmem i).mpr (hlength ▸ hi))
    rw [links, List.getElem?_eq_getElem hi, Option.map_some, Option.some_inj] at hlink
    rw [hlink, ← hmem, List.formPerm_mem_iff_mem, hmem, ← hlength]
    exact hi
  · intro start hstart
    obtain ⟨visited, hwalk, hvisited⟩ :=
      hring.exists_walk (hperm.nodup_iff.mpr List.nodup_range) ((hmem start).mpr hstart)
    rw [horder] at hwalk
    exact ⟨visited, hwalk, hvisited.trans hperm⟩

/-- Three cells with the same key. -/
theorem buildRing_cycle_three : ∃ DataSet,
    buildRing StdSort.insertion (fun _ => 7) 3 = some DataSet ∧ IsCycle DataSet 3 :=
  buildRing_cycle StdSort.insertion (fun _ => 7) 3 (by decide)

end LinuxProgram.Cache
