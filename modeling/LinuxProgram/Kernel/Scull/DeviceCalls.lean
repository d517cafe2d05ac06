import LinuxProgram.Kernel.Scull.DeviceSpec

/-!
# scull_read, scull_write and scull_trim on the file

What the calls do to the file that a good device holds, whatever the memory does and wherever
the copy to or from the caller stops.

* `scullRead_spec` — the file stays, and what is read is what `SparseFile.read` gives.
* `scullWrite_spec` — what was copied is stored, and the file grows if all was.
* `scullTrim_spec` — all memory is freed.
-/

namespace LinuxProgram.Kernel.Scull

open Lib

variable {g : Geometry} {dev : ScullDev} {m : Slab} {data : List ScullQset}

theorem at?_natCast {α : Type*} (l : List α) (i : ℕ) : at? l i = l[i]? := by
  rw [at?, if_neg (by omega), Int.toNat_natCast]

/-- What is left of a quantum. -/
theorem sizeT_room (p : ℕ) :
    sizeT (g.quantum - (p % g.quantum : ℕ)) = g.blocks.room p := by
  have hlt := Nat.mod_lt p g.quantum_pos
  have hquantum := g.quantum_lt
  rw [sizeT, Blocks.room, show g.blocks.block = g.quantum from rfl]
  omega

/-- A quantum of a good device has its size. -/
theorem length_slotIn (h : ∀ qs ∈ data, qs.Shaped g) {k : ℕ} {block : Quantum}
    (hslot : slotIn g data k = some block) : block.val.length = g.quantum := by
  obtain ⟨qs, hqs, hslot⟩ := Option.bind_eq_some_iff.mp hslot
  obtain ⟨set, hset, hslot⟩ := Option.bind_eq_some_iff.mp hslot
  have hmem := List.mem_of_getElem? (Option.join_eq_some_iff.mp hslot)
  exact (h qs (List.mem_of_getElem? hqs) set hset).2 block hmem

/-- The cells from a position to the end of its quantum. -/
theorem cellIn_room {p i : ℕ} (hi : i < g.blocks.room p) :
    cellIn g data (g.blocks.addr p + i) =
      (slotIn g data (g.blocks.addr p / g.quantum)).bind (·.val[p % g.quantum + i]?) := by
  have hdiv : (g.blocks.addr p + i) / g.quantum = g.blocks.addr p / g.quantum :=
    g.blocks.add_div hi
  have hmod : (g.blocks.addr p + i) % g.quantum = p % g.quantum + i := by
    have haddr : g.blocks.addr p % g.quantum = p % g.quantum := g.blocks.addr_mod
    rw [Blocks.room, show g.blocks.block = g.quantum from rfl] at hi
    rw [Nat.add_mod, haddr, Nat.mod_eq_of_lt (show i < g.quantum by omega),
      Nat.mod_eq_of_lt (show p % g.quantum + i < g.quantum by omega)]
  rw [cellIn, hdiv, hmod]

/-! ### scull_read

A read finds its quantum, a hole in an array, or no array.  It reads to the end of the quantum at
most, also if more was asked for, and returns 0 at a hole, although there may be data behind.
`scull_follow` may have made the list longer on the way, which the file does not see. -/

/-- A quantum is read. -/
theorem read_slot (h : ∀ qs ∈ data, qs.Shaped g) {p : ℕ} {block : Quantum}
    (hslot : slotIn g data (g.blocks.addr p / g.quantum) = some block) (size count : ℕ) :
    (SparseFile.mk size (cellIn g data)).read g.blocks p count =
      (block.val.drop (p % g.quantum)).take
        (min (min count (size - p)) (g.blocks.room p)) := by
  have hlength := length_slotIn h hslot
  have hroom : g.blocks.room p = g.quantum - p % g.quantum := rfl
  have htake : ((block.val.drop (p % g.quantum)).take
      (min (min count (size - p)) (g.blocks.room p))).length =
        min (min count (size - p)) (g.blocks.room p) := by
    rw [List.length_take, List.length_drop, hlength, ← hroom]
    exact Nat.min_eq_left (Nat.min_le_right _ _)
  rw [SparseFile.read]
  conv_lhs => rw [← htake]
  refine SparseFile.range_eq fun i hi => ?_
  rw [htake] at hi
  refine (cellIn_room (hi.trans_le (Nat.min_le_right _ _))).trans ?_
  rw [hslot, List.getElem_take, List.getElem_drop]
  exact List.getElem?_eq_getElem _

/-- A hole is read. -/
theorem read_hole {p : ℕ} (hslot : slotIn g data (g.blocks.addr p / g.quantum) = none)
    (size count : ℕ) : (SparseFile.mk size (cellIn g data)).read g.blocks p count = [] := by
  refine SparseFile.range_eq_nil fun i hi => ?_
  refine (cellIn_room (hi.trans_le (Nat.min_le_right _ _))).trans ?_
  rw [hslot]
  rfl

/-- An array of a good device has a place for the position. -/
theorem getElem?_set {qs : ScullQset} (h : qs.Shaped g) {set : QuantumSet}
    (hset : qs.data = some set) (p : ℕ) :
    ∃ slot, set.val[p / g.quantum % g.qset]? = some slot ∧
      slot = qs.slot (p / g.quantum % g.qset) := by
  have hlt : p / g.quantum % g.qset < set.val.length := by
    rw [(h set hset).1]
    exact Nat.mod_lt _ g.qset_pos
  refine ⟨_, List.getElem?_eq_getElem hlt, ?_⟩
  rw [ScullQset.slot, hset, Option.bind_some, List.getElem?_eq_getElem hlt]
  rfl

/-- What `scull_read` does in an item: it reads to the end of the quantum at most, and nothing where
there is none. -/
theorem readItem_spec {qs : ScullQset} (h : qs.Shaped g) (p count : ℕ) (fault : Bool)
    (item : ℤ) :
    ∃ retval, readItem g.quantum ⟨item, (p / g.quantum % g.qset : ℕ), (p % g.quantum : ℕ)⟩ count
        fault qs = some retval ∧
      (retval = .ok (match qs.slot (p / g.quantum % g.qset) with
        | none => []
        | some block => (block.val.drop (p % g.quantum)).take (min count (g.blocks.room p))) ∨
      fault = true ∧ retval = .error .EFAULT) := by
  rw [readItem]
  cases hdata : qs.data with
  | none =>
      refine ⟨_, rfl, .inl ?_⟩
      rw [ScullQset.slot, hdata]
      rfl
  | some set =>
      obtain ⟨slot, hslot, heq⟩ := getElem?_set h hdata p
      rw [← heq]
      dsimp only
      rw [at?_natCast, hslot]
      cases slot with
      | none => exact ⟨_, rfl, .inl rfl⟩
      | some block =>
          have hlength := (h set hdata).2 block (List.mem_of_getElem? hslot)
          have hroom : g.blocks.room p = g.quantum - p % g.quantum := rfl
          have hlt := Nat.mod_lt p g.quantum_pos
          dsimp only
          rw [sizeT_room, if_neg (by omega)]
          cases fault with
          | true => exact ⟨_, rfl, .inr ⟨rfl, rfl⟩⟩
          | false => exact ⟨_, rfl, .inl rfl⟩

/-- **`scull_read`** gives what is in the file; the list may have grown. -/
theorem scullRead_spec (h : Good g dev m) (p count : ℕ) (fault : Bool) :
    ∃ data m' retval, scullRead g.quantum g.qset p count fault dev m =
        some ({ dev with data := data }, m', retval) ∧
      Good g { dev with data := data } m' ∧ cellIn g data = cellIn g dev.data ∧
      (retval = .ok ((dev.file g).read g.blocks p count) ∨
        fault = true ∧ retval = .error .EFAULT) := by
  rw [scullRead]
  by_cases hend : p ≥ dev.size
  · rw [if_pos hend]
    refine ⟨dev.data, m, _, rfl, h, rfl, .inl (congrArg Except.ok ?_)⟩
    rw [SparseFile.read, ScullDev.file, Nat.sub_eq_zero_of_le hend, Nat.min_zero, Nat.zero_min,
      SparseFile.range_zero]
  · have hcount : (if p + count > dev.size then dev.size - p
        else count) = min count (dev.size - p) := by
      split <;> omega
    obtain ⟨⟨data, m', found⟩, hfollow⟩ :
        ∃ r, scullFollow dev.data (int (p / g.itemsize : ℕ)) m = r := ⟨_, rfl⟩
    obtain ⟨hfollows, hfound, hmissed⟩ := scullFollow_spec dev.data _ m hfollow
    rw [item_steps] at hfound hmissed
    have hgood := hfollows.good h
    have hcell := hfollows.cellIn (g := g)
    have hslots := hfollows.slotIn (g := g) (g.blocks.addr p / g.quantum)
    refine ⟨data, m', ?_⟩
    simp only [if_neg hend, locate_eq, hcount, hfollow]
    cases found with
    | none =>
        refine ⟨_, rfl, hgood, hcell, .inl (congrArg Except.ok (read_hole ?_ _ _).symm)⟩
        rw [slotIn, List.getElem?_eq_none (hmissed rfl)]
        rfl
    | some k =>
        obtain ⟨hk, hlt⟩ := hfound k rfl
        have hitem : data[k]? = some data[k] := List.getElem?_eq_getElem hlt
        have hslot : slotIn g dev.data (g.blocks.addr p / g.quantum) =
            data[k].slot (p / g.quantum % g.qset) := by
          rw [← hslots, slotIn, ← hk, hitem, s_pos_eq p]
          rfl
        obtain ⟨retval, hread, hretval⟩ := readItem_spec
          (hgood.items _ (List.getElem_mem hlt)) p
          (min count (dev.size - p)) fault (int (p / g.itemsize : ℕ))
        simp only [Option.bind_some, hitem, hread]
        refine ⟨retval, rfl, hgood, hcell, hretval.imp_left fun hok => ?_⟩
        rw [hok, ← hslot]
        congr 1
        cases hquantum : slotIn g dev.data (g.blocks.addr p / g.quantum) with
        | none => exact (read_hole hquantum _ _).symm
        | some block => exact (read_slot h.items hquantum _ _).symm

/-! ### scull_write

A write may need an array and a quantum, for each of which there may be no memory, and the copy
from the caller may stop in the middle.  The bytes that were copied by then are stored, but the
position and the size of the device stay.  `Writes` lists these outcomes, and the proof goes
through the branches of `scull_write` in their order. -/

theorem getElem?_splice {old : List Cell} {offset : ℕ} {bytes : List UInt8}
    (hfits : offset + bytes.length ≤ old.length) (i : ℕ) :
    (splice old offset bytes)[i]? =
      if offset ≤ i ∧ i < offset + bytes.length then (bytes.map some)[i - offset]?
      else old[i]? := by
  have hoffset : (old.take offset).length = offset := by
    rw [List.length_take]
    omega
  rw [splice, List.append_assoc, List.getElem?_append, hoffset]
  by_cases hlt : i < offset
  · rw [if_pos hlt, if_neg (by omega), List.getElem?_take_of_lt hlt]
  · rw [if_neg hlt, List.getElem?_append, List.length_map]
    by_cases hin : i - offset < bytes.length
    · rw [if_pos hin, if_pos (by omega)]
    · rw [if_neg hin, if_neg (by omega), List.getElem?_drop]
      congr 1
      omega

theorem length_splice {old : List Cell} {offset : ℕ} {bytes : List UInt8}
    (hfits : offset + bytes.length ≤ old.length) :
    (splice old offset bytes).length = old.length := by
  simp only [splice, List.length_append, List.length_take, List.length_map, List.length_drop]
  omega

/-- An array that was there, or a new one. -/
theorem itemSet_spec {qs : ScullQset} (h : qs.Shaped g) (m : Slab) :
    itemSet g.qset qs.data m = none ∧ qs.data = none ∨
      ∃ set m', itemSet g.qset qs.data m = some (set, m') ∧
        ScullQset.Shaped g { qs with data := some set } ∧
        (∀ j, ScullQset.slot { qs with data := some set } j = qs.slot j) ∧
        m.ledger.Trades m'.ledger qs.blocks (ScullQset.blocks { qs with data := some set }) := by
  cases hdata : qs.data with
  | some set =>
      have hqs : { qs with data := some set } = qs := by rw [← hdata]
      refine .inr ⟨set, m, rfl, ?_⟩
      rw [hqs]
      exact ⟨h, fun _ => rfl, .refl _ _⟩
  | none =>
      rw [itemSet]
      cases hkmalloc : m.kmalloc (g.qset * 8) with
      | none => exact .inl ⟨rfl, rfl⟩
      | some r =>
          obtain ⟨addr, m'⟩ := r
          refine .inr ⟨_, m', rfl, fun set hset => ?_, fun j => ?_, ?_⟩
          · cases hset
            refine ⟨by rw [List.length_replicate, Int.toNat_natCast], fun quantum hquantum => ?_⟩
            exact absurd (List.eq_of_mem_replicate hquantum) (Option.some_ne_none _)
          · rw [ScullQset.slot, ScullQset.slot, hdata, Option.bind_some, List.getElem?_replicate]
            split <;> rfl
          · have hempty : (List.replicate g.qset (none : Option Quantum)).flatMap slotBlocks = [] :=
              List.flatMap_eq_nil_iff.mpr fun slot hslot => by
                rw [List.eq_of_mem_replicate hslot]
                rfl
            have htrades := (kmalloc_trades hkmalloc).frame [qs.addr]
            refine htrades.perm ?_ ?_
            · rw [ScullQset.blocks, hdata]
              exact .refl _
            · rw [ScullQset.blocks, Option.toList_some, List.flatMap_singleton, setBlocks,
                Int.toNat_natCast, hempty]
              exact .swap _ _ _

/-- A quantum that was there, or a new one. -/
theorem setQuantum_spec {slot : Option Quantum}
    (h : ∀ block, slot = some block → block.val.length = g.quantum) (m : Slab) :
    setQuantum g.quantum slot m = none ∧ slot = none ∨
      ∃ block m', setQuantum g.quantum slot m = some (block, m') ∧
        block.val = (slot.map Block.val).getD (List.replicate g.quantum none) ∧
        block.val.length = g.quantum ∧
        m.ledger.Trades m'.ledger (slotBlocks slot) [block.addr] := by
  cases slot with
  | some block => exact .inr ⟨block, m, rfl, rfl, h block rfl, .refl _ _⟩
  | none =>
      rw [setQuantum]
      cases hkmalloc : m.kmalloc g.quantum with
      | none => exact .inl ⟨rfl, rfl⟩
      | some r =>
          obtain ⟨addr, m'⟩ := r
          refine .inr ⟨_, m', rfl, ?_, ?_, kmalloc_trades hkmalloc⟩
          · rw [Int.toNat_natCast]
            rfl
          · rw [List.length_replicate, Int.toNat_natCast]

/-- What `copy_from_user` has copied. -/
def copied (buf : List UInt8) (fault : Option (List UInt8)) (room : ℕ) : List UInt8 :=
  (fault.getD buf).take (min buf.length room)

/-- **The quantum** behind a write, in which the bytes are stored at the offset of the position. -/
def written (g : Geometry) (slot : Option Quantum) (p : ℕ) (bytes : List UInt8) : List Cell :=
  splice ((slot.map Block.val).getD (List.replicate g.quantum none)) (p % g.quantum) bytes

/-- What `scull_write` returns if there is memory. -/
def copyResult (buf : List UInt8) (fault : Option (List UInt8)) (room : ℕ) : Except Errno ℕ :=
  if fault.isSome then .error .EFAULT else .ok (min buf.length room)

/-- What `scull_write` does in an item: nothing if a block is missing, for which there is no
memory, and else it writes to the quantum. -/
theorem writeItem_spec {qs : ScullQset} (h : qs.Shaped g) (p : ℕ) (buf : List UInt8)
    (fault : Option (List UInt8)) (item : ℤ) (m : Slab) :
    ∃ qs' m' retval, writeItem g.quantum g.qset
        ⟨item, (p / g.quantum % g.qset : ℕ), (p % g.quantum : ℕ)⟩ buf fault qs m =
          some (qs', m', retval) ∧
      qs'.Shaped g ∧ m.ledger.Trades m'.ledger qs.blocks qs'.blocks ∧
      (retval = .error .ENOMEM ∧ qs.slot (p / g.quantum % g.qset) = none ∧
          (∀ j, qs'.slot j = qs.slot j) ∨
        retval = copyResult buf fault (g.blocks.room p) ∧ ∃ addr, ∀ j, qs'.slot j =
          if j = p / g.quantum % g.qset then
            some ⟨addr, written g (qs.slot (p / g.quantum % g.qset)) p
              (copied buf fault (g.blocks.room p))⟩
          else qs.slot j) := by
  rw [writeItem]
  rcases itemSet_spec h m with ⟨hset, hnone⟩ | ⟨set, m₁, hset, hshaped, hslots, htrades⟩
  · rw [hset]
    refine ⟨qs, m, _, rfl, h, .refl _ _, .inl ⟨rfl, ?_, fun _ => rfl⟩⟩
    rw [ScullQset.slot, hnone]
    rfl
  · rw [hset]
    dsimp only
    obtain ⟨slot, hslot, heq⟩ := getElem?_set hshaped rfl p
    rw [at?_natCast, hslot]
    dsimp only
    rw [hslots] at heq
    have hlengths := hshaped set rfl
    have hold : ∀ block, slot = some block → block.val.length = g.quantum := fun block hblock =>
      hlengths.2 block (hblock ▸ List.mem_of_getElem? hslot)
    rcases setQuantum_spec hold m₁ with
      ⟨hquantum, hnone⟩ | ⟨block, m₂, hquantum, hval, hlength, hblock⟩
    · rw [hquantum]
      exact ⟨_, m₁, _, rfl, hshaped, htrades, .inl ⟨rfl, heq.symm.trans hnone, hslots⟩⟩
    · rw [hquantum]
      dsimp only
      have hroom : g.blocks.room p = g.quantum - p % g.quantum := rfl
      have hlt := Nat.mod_lt p g.quantum_pos
      have hfits : p % g.quantum +
          (copied buf fault (g.blocks.room p)).length ≤ block.val.length := by
        rw [copied, List.length_take]
        omega
      rw [sizeT_room, if_neg (by omega), Int.toNat_natCast, Int.toNat_natCast]
      refine ⟨_, m₂, _, rfl, fun set' hset' => ?_, ?_, .inr ⟨rfl, block.addr, fun j => ?_⟩⟩
      · cases hset'
        refine ⟨(List.length_set).trans hlengths.1, fun quantum hmem => ?_⟩
        rcases List.mem_or_eq_of_mem_set hmem with hmem | hnew
        · exact hlengths.2 quantum hmem
        · cases hnew
          exact (length_splice hfits).trans hlength
      · -- the array has the new quantum in the place of the old one
        have hset' : m₁.ledger.Trades m₂.ledger (set.val.flatMap slotBlocks)
            ((set.val.set (p / g.quantum % g.qset) (some ⟨block.addr, splice block.val
              (p % g.quantum) (copied buf fault (g.blocks.room p))⟩)).flatMap slotBlocks) :=
          .set hslot hblock
        refine htrades.trans ?_
        refine (hset'.frame [qs.addr, set.addr]).perm ?_ ?_
        · rw [ScullQset.blocks, Option.toList_some, List.flatMap_singleton, setBlocks]
          exact (List.perm_append_comm : ([qs.addr, set.addr] ++ _).Perm _)
        · rw [ScullQset.blocks, Option.toList_some, List.flatMap_singleton, setBlocks]
          exact (List.perm_append_comm : (_ ++ [qs.addr, set.addr]).Perm _)
      · rw [written, ← heq, ← hval, ScullQset.slot, Option.bind_some, List.getElem?_set]
        by_cases hj : j = p / g.quantum % g.qset
        · have hlt : p / g.quantum % g.qset < set.val.length := by
            rw [hlengths.1]
            exact Nat.mod_lt _ g.qset_pos
          rw [if_pos hj, if_pos hj.symm, if_pos hlt]
          rfl
        · rw [if_neg hj, if_neg (Ne.symm hj), ← hslots]
          rfl

/-- **What a write may do** to a file in blocks `b`. -/
inductive Writes (b : Blocks) (f : SparseFile Cell) (p : ℕ) (buf : List UInt8) :
    Option (List UInt8) → Except Errno ℕ → SparseFile Cell → Prop
  /-- It takes what the quantum has room for. -/
  | ok : Writes b f p buf none (.ok (min buf.length (b.room p)))
      (f.write b none p (buf.map some))
  /-- The copy stops, and the file does not grow. -/
  | fault (left : List UInt8) : Writes b f p buf (some left) (.error .EFAULT)
      (f.fill b none p ((left.take (min buf.length (b.room p))).map some))
  /-- There is no memory for a hole. -/
  | noMemory (fault : Option (List UInt8)) (hole : f.cell (b.addr p) = none) :
      Writes b f p buf fault (.error .ENOMEM) f

/-- Below the period a write does what it does to a plain file. -/
theorem Writes.plain {b : Blocks} {f f' : SparseFile Cell} {p : ℕ} {buf : List UInt8}
    {fault : Option (List UInt8)} {retval : Except Errno ℕ} (h : Writes b f p buf fault retval f')
    (hp : p < b.period) : Writes b.plain f p buf fault retval f' := by
  cases h with
  | ok =>
      rw [SparseFile.write_plain hp]
      exact .ok
  | fault left =>
      rw [SparseFile.fill_plain hp]
      exact .fault left
  | noMemory fault hole =>
      rw [b.addr_of_lt hp] at hole
      exact .noMemory fault (by rwa [b.addr_plain])

/-- Positions of one quantum. -/
theorem offset_iff {a p n : ℕ} (h : a / g.quantum = g.blocks.addr p / g.quantum) :
    (p % g.quantum ≤ a % g.quantum ∧ a % g.quantum < p % g.quantum + n ↔
      g.blocks.addr p ≤ a ∧ a < g.blocks.addr p + n) ∧
    a % g.quantum - p % g.quantum = a - g.blocks.addr p := by
  have ha := Nat.div_add_mod a g.quantum
  have hp := Nat.div_add_mod (g.blocks.addr p) g.quantum
  have haddr : g.blocks.addr p % g.quantum = p % g.quantum := g.blocks.addr_mod
  rw [h] at ha
  omega

/-- **The file** behind a write is the one before it with the bytes at the position, where a quantum
that is new holds nothing else. -/
theorem cellIn_fill {data' : List ScullQset} (h : ∀ qs ∈ data, qs.Shaped g) {p addr : ℕ}
    {bytes : List UInt8} (hroom : bytes.length ≤ g.blocks.room p)
    (hslots : ∀ k, slotIn g data' k = if k = g.blocks.addr p / g.quantum then
      some ⟨addr, written g (slotIn g data (g.blocks.addr p / g.quantum)) p bytes⟩
      else slotIn g data k) (size : ℕ) :
    cellIn g data' =
      ((SparseFile.mk size (cellIn g data)).fill g.blocks none p (bytes.map some)).cell := by
  funext a
  rw [cellIn, hslots, SparseFile.fill]
  dsimp only
  by_cases ha : a / g.quantum = g.blocks.addr p / g.quantum
  · have hlen : p % g.quantum + bytes.length ≤
        (((slotIn g data (g.blocks.addr p / g.quantum)).map Block.val).getD
          (List.replicate g.quantum none)).length := by
      have hroom' : g.blocks.room p = g.quantum - p % g.quantum := rfl
      have hlt := Nat.mod_lt p g.quantum_pos
      cases hslot : slotIn g data (g.blocks.addr p / g.quantum) with
      | none =>
          rw [Option.map_none, Option.getD_none, List.length_replicate]
          omega
      | some block =>
          rw [Option.map_some, Option.getD_some, length_slotIn h hslot]
          omega
    obtain ⟨hiff, hsub⟩ := offset_iff (n := bytes.length) ha
    rw [if_pos ha, if_pos (show a / g.blocks.block = _ / g.blocks.block from ha),
      Option.bind_some]
    dsimp only
    rw [written, getElem?_splice hlen, hsub, List.length_map]
    refine if_congr hiff rfl ?_
    rw [cellIn, ha]
    cases hslot : slotIn g data (g.blocks.addr p / g.quantum) with
    | none =>
        rw [Option.map_none, Option.getD_none, Option.bind_none, Option.getD_none,
          List.getElem?_replicate, if_pos (Nat.mod_lt a g.quantum_pos)]
    | some block =>
        have hlt : a % g.quantum < block.val.length := by
          rw [length_slotIn h hslot]
          exact Nat.mod_lt a g.quantum_pos
        rw [Option.map_some, Option.getD_some, Option.bind_some, List.getElem?_eq_getElem hlt,
          Option.getD_some]
  · rw [if_neg ha, if_neg (show ¬a / g.blocks.block = _ / g.blocks.block from ha)]
    rfl

/-- An item is replaced. -/
theorem slotIn_set {k : ℕ} (hk : k < data.length) (qs : ScullQset) (i : ℕ) :
    slotIn g (data.set k qs) i =
      if i / g.qset = k then qs.slot (i % g.qset) else slotIn g data i := by
  rw [slotIn, slotIn, List.getElem?_set]
  by_cases hi : i / g.qset = k
  · rw [if_pos hi, if_pos hi.symm, if_pos hk]
    rfl
  · rw [if_neg hi, if_neg (Ne.symm hi)]

theorem cell_addr (data : List ScullQset) (p : ℕ) (h : ∀ qs ∈ data, qs.Shaped g) :
    cellIn g data (g.blocks.addr p) = none ↔
      slotIn g data (g.blocks.addr p / g.quantum) = none := by
  rw [cellIn]
  cases hslot : slotIn g data (g.blocks.addr p / g.quantum) with
  | none => exact iff_of_true rfl rfl
  | some block =>
      rw [Option.bind_some, List.getElem?_eq_none_iff, length_slotIn h hslot]
      exact iff_of_false (not_le.mpr (Nat.mod_lt _ g.quantum_pos)) (Option.some_ne_none _)

/-- **`scull_write`** writes to the file, or leaves it as it is if there is no memory. -/
theorem scullWrite_spec (h : Good g dev m) (p : ℕ) (buf : List UInt8)
    (fault : Option (List UInt8)) :
    ∃ dev' m' retval, scullWrite g.quantum g.qset p buf fault dev m = some (dev', m', retval) ∧
      Good g dev' m' ∧ Writes g.blocks (dev.file g) p buf fault retval (dev'.file g) := by
  obtain ⟨⟨data, m', found⟩, hfollow⟩ :
      ∃ r, scullFollow dev.data (int (p / g.itemsize : ℕ)) m = r := ⟨_, rfl⟩
  obtain ⟨hfollows, hfound, hmissed⟩ := scullFollow_spec dev.data _ m hfollow
  rw [item_steps] at hfound hmissed
  have hgood := hfollows.good h
  have hcell := hfollows.cellIn (g := g)
  rw [scullWrite]
  simp only [locate_eq, hfollow]
  cases found with
  | none =>
      refine ⟨_, m', _, rfl, hgood, ?_⟩
      have hfile : ScullDev.file g { dev with data := data } = dev.file g := by
        rw [ScullDev.file, ScullDev.file, hcell]
      rw [hfile]
      refine .noMemory fault ?_
      refine (cell_addr dev.data p h.items).mpr ?_
      rw [slotIn, List.getElem?_eq_none (hmissed rfl)]
      rfl
  | some k =>
      obtain ⟨hk, hlt⟩ := hfound k rfl
      have hitem : data[k]? = some data[k] := List.getElem?_eq_getElem hlt
      have hslot : slotIn g data (g.blocks.addr p / g.quantum) =
          data[k].slot (p / g.quantum % g.qset) := by
        rw [slotIn, ← hk, hitem, s_pos_eq p]
        rfl
      obtain ⟨qs, m'', retval, hwrite, hshaped, htrades, hcases⟩ := writeItem_spec
        (hgood.items _ (List.getElem_mem hlt)) p buf fault (int (p / g.itemsize : ℕ)) m'
      simp only [hitem, hwrite]
      refine ⟨_, m'', _, rfl, ⟨hgood.quantum, hgood.qset, fun qs' hqs' => ?_, ?_⟩, ?_⟩
      · rcases List.mem_or_eq_of_mem_set hqs' with hmem | rfl
        · exact hgood.items qs' hmem
        · exact hshaped
      · exact (Ledger.Trades.set hitem htrades).accounted hgood.accounted
      · -- the quantum, or nothing, has changed
        have hother : ∀ i, i / g.qset = k → qs.slot (i % g.qset) = data[k].slot (i % g.qset) →
            slotIn g (data.set k qs) i = slotIn g data i := fun i hi hsame => by
          rw [slotIn_set hlt, if_pos hi, hsame, slotIn, hi, hitem]
          rfl
        rcases hcases with ⟨rfl, hnone, hsame⟩ | ⟨rfl, addr, hnew⟩
        · have hkeep : cellIn g (data.set k qs) = cellIn g dev.data := by
            rw [← hcell]
            funext a
            rw [cellIn, cellIn]
            congr 1
            by_cases ha : a / g.quantum / g.qset = k
            · exact hother _ ha (hsame _)
            · rw [slotIn_set hlt, if_neg ha]
          have hfile : ScullDev.file g { dev with data := data.set k qs } = dev.file g := by
            rw [ScullDev.file, ScullDev.file, hkeep]
          refine Eq.mpr (congrArg _ hfile) (.noMemory fault ?_)
          refine (cell_addr dev.data p h.items).mpr ?_
          rw [← hfollows.slotIn, hslot, hnone]
        · have hroom : (copied buf fault (g.blocks.room p)).length ≤ g.blocks.room p := by
            rw [copied, List.length_take]
            omega
          have hslots : ∀ i, slotIn g (data.set k qs) i = if i = g.blocks.addr p / g.quantum then
              some ⟨addr, written g (slotIn g data (g.blocks.addr p / g.quantum)) p
                (copied buf fault (g.blocks.room p))⟩ else slotIn g data i := fun i => by
            by_cases hi : i / g.qset = k
            · by_cases hj : i = g.blocks.addr p / g.quantum
              · rw [if_pos hj, slotIn_set hlt, if_pos hi, hnew, hslot, hj, s_pos_eq p, if_pos rfl]
              · rw [if_neg hj]
                refine hother i hi ((hnew _).trans (if_neg fun hmod => hj ?_))
                -- item and index make the address
                rw [s_pos_eq p] at hmod
                rw [← Nat.div_add_mod i g.qset, ← Nat.div_add_mod (g.blocks.addr p / g.quantum)
                  g.qset, hi, hk, hmod]
            · rw [slotIn_set hlt, if_neg hi, if_neg fun hj => hi (by rw [hj, hk])]
          have hfill := cellIn_fill hgood.items hroom hslots dev.size
          rw [hcell] at hfill
          cases fault with
          | none =>
              have htake : buf.take (min buf.length (g.blocks.room p)) =
                  buf.take (g.blocks.room p) := by
                rw [List.take_eq_take_iff]
                omega
              have hwrites : Writes g.blocks (dev.file g) p buf none _ _ := .ok
              rw [SparseFile.write, List.length_map, ← List.map_take, ← htake] at hwrites
              refine Eq.mpr (congrArg _ ?_) hwrites
              rw [ScullDev.file, hfill]
              rfl
          | some left =>
              refine Eq.mpr (congrArg _ ?_) (Writes.fault left)
              rw [ScullDev.file, hfill]
              rfl

/-! ### scull_trim

The loops free what the lists refer to.  That each block is freed once is a permutation of the
blocks of the device, one loop after the other. -/

theorem kfree_trades (addr : ℕ) (m : Slab) :
    m.ledger.Trades (m.kfree addr).ledger [addr] [] := fun _ hlive => hlive.free

/-- Every quantum of an array is freed. -/
theorem freeQuanta_spec (slots : List (Option Quantum)) (m : Slab) :
    ∃ m', freeQuanta slots slots.length m = some m' ∧
      m.ledger.Trades m'.ledger (slots.flatMap slotBlocks) [] := by
  induction slots generalizing m with
  | nil => exact ⟨m, rfl, .refl _ _⟩
  | cons slot slots ih =>
      cases slot with
      | none => exact ih m
      | some block =>
          obtain ⟨m', hfree, htrades⟩ := ih (m.kfree block.addr)
          exact ⟨m', hfree, ((kfree_trades block.addr m).frame _).trans htrades⟩

/-- Every item is freed. -/
theorem freeItems_spec (h : ∀ qs ∈ data, qs.Shaped g) (m : Slab) :
    ∃ m', freeItems g.qset data m = some m' ∧ m.ledger.Trades m'.ledger (blocksOf data) [] := by
  induction data generalizing m with
  | nil => exact ⟨m, rfl, .refl _ _⟩
  | cons qs data ih =>
      have hrest : ∀ qs ∈ data, qs.Shaped g := fun qs hqs => h qs (.tail _ hqs)
      rw [freeItems]
      cases hdata : qs.data with
      | none =>
          obtain ⟨m', hfree, htrades⟩ := ih hrest (m.kfree qs.addr)
          refine ⟨m', hfree, (((kfree_trades qs.addr m).frame _).perm ?_ (.refl _)).trans htrades⟩
          rw [blocksOf, List.flatMap_cons, ScullQset.blocks, hdata]
          exact .refl _
      | some set =>
          obtain ⟨m₁, hquanta, hslots⟩ := freeQuanta_spec set.val m
          obtain ⟨m', hfree, htrades⟩ := ih hrest ((m₁.kfree set.addr).kfree qs.addr)
          rw [(h qs (.head _) set hdata).1] at hquanta
          refine ⟨m', ?_, ?_⟩
          · dsimp only
            rw [Int.toNat_natCast, hquanta]
            exact hfree
          · have hset := (hslots.frame [set.addr]).trans (kfree_trades set.addr m₁)
            have hitem := (hset.frame [qs.addr]).trans (kfree_trades qs.addr (m₁.kfree set.addr))
            refine ((hitem.frame (blocksOf data)).perm ?_ (.refl _)).trans htrades
            rw [blocksOf, List.flatMap_cons, ScullQset.blocks, hdata, Option.toList_some,
              List.flatMap_singleton, setBlocks]
            refine List.Perm.append_right _ ?_
            rw [List.append_assoc]
            exact (List.Perm.swap _ _ _).trans
              (List.perm_append_comm : ([set.addr, qs.addr] ++ _).Perm _)

/-- **`scull_trim`** frees all memory, each block once, and leaves an empty device with the quantum
and the array size of the parameters. -/
theorem scullTrim_spec (h : Good g dev m) (scullQuantum scullQset : ℤ) :
    ∃ m', scullTrim scullQuantum scullQset dev m =
        some (⟨[], scullQuantum, scullQset, 0⟩, m') ∧ Ledger.Accounted [] m'.ledger := by
  obtain ⟨m', hfree, htrades⟩ := freeItems_spec h.items m
  refine ⟨m', ?_, htrades.accounted h.accounted⟩
  rw [scullTrim, h.qset, hfree]
  rfl

end LinuxProgram.Kernel.Scull
