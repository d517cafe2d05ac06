import LinuxProgram.Kernel.Scull.Device
import LinuxProgram.Lib.SparseFile

/-!
# What the calls do to the device

With a geometry that fits the arithmetic a device is a sparse file.

* `Geometry` — a quantum and an array size that fit, and the place of a position
  (`locate_eq`).
* `ScullDev.file` — the file that a device holds.
* `Good` — the arrays and quanta have the sizes of the geometry, and the memory is accounted for.
* `scullRead_spec`, `scullWrite_spec`, `scullTrim_spec` — the calls are defined, and what they do
  to the file.
-/

namespace LinuxProgram.Kernel.Scull

open Lib

/-- **A geometry** for which the numbers fit an `int`. -/
structure Geometry where
  quantum : ℕ
  qset : ℕ
  quantum_pos : 0 < quantum
  qset_pos : 0 < qset
  fits : quantum * qset < 2 ^ 31

namespace Geometry

variable (g : Geometry)

/-- How many bytes are in a list item. -/
def itemsize : ℕ := g.quantum * g.qset

theorem itemsize_pos : 0 < g.itemsize := Nat.mul_pos g.quantum_pos g.qset_pos

/-- **The quanta as blocks of positions.**  The number of the list item is an `int`, of which
`scull_follow` takes 32 bits, so that positions `2 ^ 32` items apart are in the same quantum.  From
there on the device is no plain file: a byte is stored over the one `2 ^ 32` items before it. -/
def blocks : Blocks where
  block := g.quantum
  period := 0x100000000 * g.itemsize
  block_pos := g.quantum_pos
  dvd := (Dvd.intro _ rfl : g.quantum ∣ g.itemsize).mul_left _

/-- **The quanta of a plain file**, where the numbers of the list items do not come round. -/
def plain : Blocks := g.blocks.plain

theorem quantum_lt : g.quantum < 2 ^ 31 :=
  (Nat.le_mul_of_pos_right _ g.qset_pos).trans_lt g.fits

end Geometry

variable {g : Geometry}

/-! ### The place of a position -/

theorem int_eq {x : ℤ} (h0 : 0 ≤ x) (h : x < 2 ^ 31) : int x = x := by
  rw [int, Int.bmod_def]
  omega

/-- The number of steps that `scull_follow` makes. -/
theorem int_steps (x : ℕ) : (int x % 0x100000000).toNat = x % 0x100000000 := by
  have hmod : int x % 0x100000000 = (x : ℤ) % 0x100000000 := Int.bmod_emod
  rw [hmod]
  omega

/-- **The place of a position.** -/
theorem locate_eq (p : ℕ) : locate g.quantum g.qset p =
    some ⟨int (p / g.itemsize : ℕ), (p / g.quantum % g.qset : ℕ), (p % g.quantum : ℕ)⟩ := by
  have hitem : int ((g.quantum : ℤ) * g.qset) = (g.itemsize : ℕ) := by
    rw [int_eq (by positivity) (by exact_mod_cast g.fits)]
    exact (Int.natCast_mul _ _).symm
  have hrest : int ((p : ℤ).tmod (g.itemsize : ℕ)) = (p % g.itemsize : ℕ) := by
    have hlt : p % g.itemsize < 2 ^ 31 := (Nat.mod_lt p g.itemsize_pos).trans g.fits
    rw [← Int.ofNat_tmod]
    exact int_eq (Int.natCast_nonneg _) (by exact_mod_cast hlt)
  have hpos := g.itemsize_pos
  rw [locate, hitem, if_neg (by omega)]
  dsimp only
  rw [hrest, ← Int.ofNat_tdiv, ← Int.ofNat_tdiv, ← Int.ofNat_tmod]
  have hs : p % g.itemsize / g.quantum = p / g.quantum % g.qset := by
    rw [Geometry.itemsize, Nat.mod_mul_right_div_self]
  have hq : p % g.itemsize % g.quantum = p % g.quantum := by
    rw [Geometry.itemsize, Nat.mod_mul_right_mod]
  rw [hs, hq]

/-! ### The file that a device holds -/

/-- A quantum of an item. -/
def ScullQset.slot (qs : ScullQset) (j : ℕ) : Option Quantum :=
  qs.data.bind fun set => set.val[j]?.join

/-- A quantum of a list. -/
def slotIn (g : Geometry) (data : List ScullQset) (k : ℕ) : Option Quantum :=
  data[k / g.qset]?.bind (ScullQset.slot · (k % g.qset))

/-- The cell at an address. -/
def cellIn (g : Geometry) (data : List ScullQset) (a : ℕ) : Option Cell :=
  (slotIn g data (a / g.quantum)).bind (·.val[a % g.quantum]?)

/-- **The file that a device holds.** -/
def ScullDev.file (g : Geometry) (dev : ScullDev) : SparseFile Cell :=
  ⟨dev.size, cellIn g dev.data⟩

/-- The blocks of a pointer in an array. -/
def slotBlocks (slot : Option Quantum) : List ℕ := (slot.map Block.addr).toList

/-- The blocks of an array. -/
def setBlocks (set : QuantumSet) : List ℕ := set.addr :: set.val.flatMap slotBlocks

/-- The blocks of an item. -/
def ScullQset.blocks (qs : ScullQset) : List ℕ := qs.addr :: qs.data.toList.flatMap setBlocks

/-- The blocks of a list. -/
def blocksOf (data : List ScullQset) : List ℕ := data.flatMap ScullQset.blocks

/-- The array of an item has its size, and so have the quanta. -/
def ScullQset.Shaped (g : Geometry) (qs : ScullQset) : Prop :=
  ∀ set, qs.data = some set →
    set.val.length = g.qset ∧ ∀ quantum, some quantum ∈ set.val → quantum.val.length = g.quantum

/-- **A good device**, and the memory it takes. -/
structure Good (g : Geometry) (dev : ScullDev) (m : Slab) : Prop where
  quantum : dev.quantum = g.quantum
  qset : dev.qset = g.qset
  items : ∀ qs ∈ dev.data, qs.Shaped g
  accounted : Ledger.Accounted (blocksOf dev.data) m.ledger

theorem Good.room {dev : ScullDev} {m : Slab} (h : Good g dev m) (room : ℕ) :
    Good g dev ⟨m.ledger, room⟩ := ⟨h.quantum, h.qset, h.items, h.accounted⟩

/-! ### Memory -/

variable {m m' : Slab} {live : List ℕ}

/-- `kmalloc` makes a block live. -/
theorem kmalloc_accounted {size : ℤ} {addr : ℕ} (h : m.kmalloc size = some (addr, m'))
    (hlive : Ledger.Accounted live m.ledger) : Ledger.Accounted (addr :: live) m'.ledger := by
  rw [Slab.kmalloc] at h
  split at h
  · cases h
  · split at h
    · cases h
    · cases h
      exact hlive.alloc

theorem kmalloc_trades {size : ℤ} {addr : ℕ} (h : m.kmalloc size = some (addr, m')) :
    m.ledger.Trades m'.ledger [] [addr] := fun _ hlive => kmalloc_accounted h hlive

/-! ### scull_follow -/

/-- An item that `scull_follow` has made. -/
def emptyItem (addr : ℕ) : ScullQset := ⟨addr, none⟩

theorem blocksOf_emptyItems (fresh : List ℕ) : blocksOf (fresh.map emptyItem) = fresh := by
  induction fresh with
  | nil => rfl
  | cons addr fresh ih => exact congrArg (addr :: ·) ih

theorem blocksOf_append (data data' : List ScullQset) :
    blocksOf (data ++ data') = blocksOf data ++ blocksOf data' := List.flatMap_append

/-- **What `scull_follow` has made** of a list: items without an array come behind it. -/
structure Follows (data data' : List ScullQset) (m m' : Slab) : Prop where
  fresh : ∃ fresh, data' = data ++ fresh.map emptyItem ∧ m.ledger.Trades m'.ledger [] fresh

variable {data data' : List ScullQset}

theorem Follows.refl (data : List ScullQset) (m : Slab) : Follows data data m m :=
  ⟨[], (List.append_nil data).symm, .refl _ []⟩

theorem Follows.cons (qs : ScullQset) (h : Follows data data' m m') :
    Follows (qs :: data) (qs :: data') m m' := by
  obtain ⟨fresh, rfl, htrades⟩ := h.fresh
  exact ⟨fresh, rfl, htrades⟩

theorem Follows.kmalloc {addr : ℕ} {m'' : Slab} (hkmalloc : m.kmalloc 16 = some (addr, m''))
    (h : Follows [] data m'' m') : Follows [] (emptyItem addr :: data) m m' := by
  obtain ⟨fresh, rfl, htrades⟩ := h.fresh
  refine ⟨addr :: fresh, rfl, fun live hlive => ?_⟩
  have hnext := htrades (addr :: live) (kmalloc_accounted hkmalloc hlive)
  exact hnext.perm List.perm_middle

theorem followLoop_none {n : ℕ} (h : m.kmalloc 16 = none) :
    followLoop [] (n + 1) m = ([], m, false) := by
  simp only [followLoop, h]

theorem followLoop_some {n addr : ℕ} (h : m.kmalloc 16 = some (addr, m')) :
    followLoop [] (n + 1) m = (emptyItem addr :: (followLoop [] n m').1,
      (followLoop [] n m').2) := by
  simp only [followLoop, h, emptyItem]

/-- **The loop** makes the items it misses, and goes on until there is no memory. -/
theorem followLoop_spec (rest : List ScullQset) (n : ℕ) (m : Slab) :
    Follows rest (followLoop rest n m).1 m (followLoop rest n m).2.1 ∧
      ((followLoop rest n m).2.2 = true → n ≤ (followLoop rest n m).1.length) ∧
      ((followLoop rest n m).2.2 = false → rest.length < n) := by
  induction n generalizing rest m with
  | zero => exact ⟨.refl rest m, fun _ => Nat.zero_le _, fun h => nomatch h⟩
  | succ n ih =>
      cases rest with
      | cons qs rest =>
          obtain ⟨hfollows, hfound, hmissed⟩ := ih rest m
          exact ⟨hfollows.cons qs, fun h => Nat.succ_le_succ (hfound h),
            fun h => Nat.succ_lt_succ (hmissed h)⟩
      | nil =>
          cases hkmalloc : m.kmalloc 16 with
          | none =>
              rw [followLoop_none hkmalloc]
              exact ⟨.refl [] m, by simp, by simp⟩
          | some r =>
              obtain ⟨addr, m'⟩ := r
              obtain ⟨hfollows, hfound, -⟩ := ih [] m'
              rw [followLoop_some hkmalloc]
              exact ⟨hfollows.kmalloc hkmalloc, fun h => Nat.succ_le_succ (hfound h),
                fun _ => Nat.succ_pos n⟩

/-- `scull_follow` is the loop on all items. -/
theorem scullFollow_eq (data : List ScullQset) (n : ℤ) (m : Slab) :
    scullFollow data n m = ((followLoop data ((n % 0x100000000).toNat + 1) m).1,
      (followLoop data ((n % 0x100000000).toNat + 1) m).2.1,
      if (followLoop data ((n % 0x100000000).toNat + 1) m).2.2 then some (n % 0x100000000).toNat
      else none) := by
  cases data with
  | cons qs rest => rfl
  | nil =>
      cases hkmalloc : m.kmalloc 16 with
      | none =>
          rw [followLoop_none hkmalloc]
          simp only [scullFollow, hkmalloc, Bool.false_eq_true, if_false]
      | some r =>
          rw [followLoop_some hkmalloc]
          simp only [scullFollow, hkmalloc, emptyItem]

/-- **`scull_follow`** finds the item, unless it is not there and there is no memory. -/
theorem scullFollow_spec (data : List ScullQset) (n : ℤ) (m : Slab) {data' : List ScullQset}
    {m' : Slab} {found : Option ℕ} (h : scullFollow data n m = (data', m', found)) :
    Follows data data' m m' ∧
      (∀ k, found = some k → k = (n % 0x100000000).toNat ∧ k < data'.length) ∧
      (found = none → data.length ≤ (n % 0x100000000).toNat) := by
  obtain ⟨hfollows, hfound, hmissed⟩ := followLoop_spec data ((n % 0x100000000).toNat + 1) m
  rw [scullFollow_eq, Prod.mk.injEq, Prod.mk.injEq] at h
  obtain ⟨rfl, rfl, rfl⟩ := h
  refine ⟨hfollows, fun k hk => ?_, fun hnone => ?_⟩
  · split at hk
    · rename_i htrue
      cases hk
      exact ⟨rfl, hfound htrue⟩
    · cases hk
  · split at hnone
    · cases hnone
    · rename_i hfalse
      exact Nat.lt_succ_iff.mp (hmissed (Bool.eq_false_iff.mpr hfalse))

/-- The new items hold nothing. -/
theorem Follows.slotIn (h : Follows data data' m m') (k : ℕ) :
    slotIn g data' k = slotIn g data k := by
  obtain ⟨fresh, rfl, -⟩ := h.fresh
  rw [Scull.slotIn, Scull.slotIn, List.getElem?_append]
  split
  · rfl
  · rename_i hge
    rw [List.getElem?_eq_none (not_lt.mp hge), List.getElem?_map]
    cases fresh[k / g.qset - data.length]? with
    | none => rfl
    | some addr => rfl

theorem Follows.cellIn (h : Follows data data' m m') : cellIn g data' = cellIn g data := by
  funext a
  rw [Scull.cellIn, Scull.cellIn, h.slotIn]

theorem Follows.shaped (h : Follows data data' m m') (hdata : ∀ qs ∈ data, qs.Shaped g) :
    ∀ qs ∈ data', qs.Shaped g := by
  obtain ⟨fresh, rfl, -⟩ := h.fresh
  intro qs hqs
  rcases List.mem_append.mp hqs with hqs | hqs
  · exact hdata qs hqs
  · obtain ⟨addr, -, rfl⟩ := List.mem_map.mp hqs
    exact fun set hset => nomatch hset

theorem Follows.accounted (h : Follows data data' m m')
    (hdata : Ledger.Accounted (blocksOf data) m.ledger) :
    Ledger.Accounted (blocksOf data') m'.ledger := by
  obtain ⟨fresh, rfl, htrades⟩ := h.fresh
  rw [blocksOf_append, blocksOf_emptyItems]
  exact (htrades _ hdata).perm List.perm_append_comm

/-- A device stays good. -/
theorem Follows.good {dev : ScullDev} (h : Follows dev.data data m m') (hdev : Good g dev m) :
    Good g { dev with data := data } m' :=
  ⟨hdev.quantum, hdev.qset, h.shaped hdev.items, h.accounted hdev.accounted⟩

/-- The item that `scull_follow` looks for at a position. -/
theorem item_steps (p : ℕ) :
    (int (p / g.itemsize : ℕ) % 0x100000000).toNat = g.blocks.addr p / g.quantum / g.qset := by
  rw [int_steps, Nat.div_div_eq_div_mul]
  exact (Nat.mod_mul_left_div_self p g.itemsize (0x100000000)).symm

/-- The index in its array. -/
theorem s_pos_eq (p : ℕ) : p / g.quantum % g.qset = g.blocks.addr p / g.quantum % g.qset := by
  rw [← Nat.mod_mul_right_div_self, ← Nat.mod_mul_right_div_self]
  congr 1
  exact (Nat.mod_mul_left_mod p (0x100000000) g.itemsize).symm

end LinuxProgram.Kernel.Scull
