import LinuxProgram.MemoryAllocatorBitmap.InStorage

/-!
# The searches are exact

`Find<SLICES>()` returns the first run for every bitmap, its shortcut is the scan it
skips, and `Find()` is the search for one slice.  Two things are in the way.

* The scan counts bits in an `int`: a bitmap of `2^31` slices that are all taken is not
  scanned to its end (`findLoop_full`).
* `SIZE+SLICE_SIZE-1` can wrap: then `acquire` asks for no slices and gets the first one,
  whether it is taken or not (`acquire_wraps`).

`Exact` says what an exact search finds in one bitmap, and `exact_iff` that nothing else goes
wrong.
-/

namespace LinuxProgram.MemoryAllocatorBitmap

variable {P : Params}

/-- **The searches in a bitmap are exact**: `Find<SLICES>()` finds the first run of free slices if
there is one, by its shortcut as by the scan, and `acquire<SIZE>()` fails only for want of a run. -/
structure Exact (P : Params) (size : ℕ) (bm : Bitmap P.fixedSliceCnt) : Prop where
  /-- One plus the start of the first run, or 0 if there is none. -/
  first : ∀ slices, 1 ≤ slices → ∃ slot, bm.findSlices slices = some slot ∧ bm.First slices slot
  /-- What the scan would have returned. -/
  shortcut : ∀ slices, 1 ≤ slices →
    bm.findSlices slices = bm.findLoop slices P.fixedSliceCnt 0 0#64 0 0
  single : bm.findSlices 1 = some bm.find
  /-- Null exactly if there is no run that is long enough. -/
  acquire : ∃ ptr bm', P.acquire size bm = some (ptr, bm') ∧
    (ptr = none ↔ ∀ p, p + P.needed size ≤ P.fixedSliceCnt → ¬ bm.Run p (P.needed size))

/-! ### The searches -/

namespace Bitmap

variable {cnt : ℕ} {bm : Bitmap cnt} {n slot slot' : ℕ}

/-- There is one first run. -/
theorem First.unique (h : bm.First n slot) (h' : bm.First n slot') : slot = slot' := by
  rcases h with ⟨rfl, hnone⟩ | ⟨p, rfl, hp, hrun, hfirst⟩
  · rcases h' with ⟨rfl, -⟩ | ⟨q, -, hq, hrun', -⟩
    · rfl
    · exact absurd hrun' (hnone q hq)
  · rcases h' with ⟨-, hnone⟩ | ⟨q, rfl, -, hrun', hfirst'⟩
    · exact absurd hrun (hnone p hp)
    · rcases Nat.lt_trichotomy p q with hlt | rfl | hlt
      · exact absurd hrun (hfirst' p hlt)
      · rfl
      · exact absurd hrun' (hfirst q hlt)

/-- **`Find<SLICES>()` is exact** if the bits can be counted. -/
theorem findSlices_exact (hcnt : cnt < 2 ^ 31) (hpos : 64 ≤ cnt) (bm : Bitmap cnt) (hn : 1 ≤ n) :
    ∃ slot, bm.findSlices n = some slot ∧ bm.First n slot := by
  obtain ⟨slot, hslot, -⟩ := findSlices_spec hcnt hpos bm n
  exact ⟨slot, hslot, findSlices_first hpos hn hslot⟩

/-- **The shortcut** is taken where the scan ends within the first word. -/
theorem findSlices_eq_findLoop (hpos : 64 ≤ cnt) (bm : Bitmap cnt) (hn : 1 ≤ n) :
    bm.findSlices n = bm.findLoop n cnt 0 0#64 0 0 := by
  rw [findSlices]
  split
  · rfl
  · rename_i htz
    have hle := tzcnt_le (bm.word 0)
    symm
    apply findLoop_free bm (by omega) (fun k hk => bit_of_lt_tzcnt (by omega)) cnt hn (by omega)
    exact fun h => absurd rfl h

/-- **`Find()`** is the search for one slice. -/
theorem findSlices_one (hdvd : 64 ∣ cnt) (hcnt : cnt < 2 ^ 31) (hpos : 64 ≤ cnt)
    (bm : Bitmap cnt) : bm.findSlices 1 = some bm.find := by
  obtain ⟨slot, hslot, hfirst⟩ := findSlices_exact hcnt hpos bm le_rfl
  rw [hslot, hfirst.unique (find_first hdvd)]

/-- **The scan of slices that are all taken** goes on until `bit` overflows. -/
theorem findLoop_full (hcnt : 2 ^ 31 ≤ cnt) (hset : ∀ k < cnt, bm.bit k = true) (left : ℕ) :
    ∀ {bit maxSoFar currentRet : ℕ} {data : BitVec 64}, bit + left = cnt → bit < 2 ^ 31 →
      bm.Loaded bit data → bm.findLoop n left bit data currentRet maxSoFar = none := by
  induction left with
  | zero =>
      intro bit maxSoFar currentRet data hleft hbit
      omega
  | succ left ih =>
      intro bit maxSoFar currentRet data hleft hbit hdata
      have htaken : (1#64 <<< (bit % 64)) &&& bm.word (bit / 64) ≠ 0#64 := by
        rw [test_bit (Nat.mod_lt _ (by decide))]
        exact hset bit (by omega)
      rw [findLoop]
      simp only [hdata.load]
      rcases eq_or_ne (bit + 1) (2 ^ 31) with hlast | hlast
      · exact if_pos hlast
      · rw [if_neg hlast, if_pos htaken]
        exact ih (by omega) (by omega) (bm.loaded_succ bit)

/-- No such search returns. -/
theorem findSlices_full (hcnt : 2 ^ 31 ≤ cnt) (hset : ∀ k < cnt, bm.bit k = true) (hn : 1 ≤ n) :
    bm.findSlices n = none := by
  rw [findSlices_eq_findLoop (by omega) bm hn]
  exact findLoop_full hcnt hset cnt (Nat.zero_add _) (by decide) fun h => absurd rfl h

end Bitmap

/-! ### acquire -/

/-- The search of `acquire`. -/
theorem found_exact (hcnt : P.fixedSliceCnt < 2 ^ 31) (size : ℕ) (bm : Bitmap P.fixedSliceCnt) :
    ∃ slot, P.found size bm = some slot ∧ bm.First (P.slices size) slot := by
  rcases Nat.eq_zero_or_pos (P.slices size) with hzero | hpos
  · refine ⟨1, found_zero hzero, .inr ⟨0, rfl, by omega, fun k hk hk' => ?_, fun q hq => ?_⟩⟩
    · omega
    · exact absurd hq (Nat.not_lt_zero q)
  · have hdef : ∃ slot, P.found size bm = some slot := by
      rw [Params.found]
      split
      · exact ⟨_, rfl⟩
      · obtain ⟨slot, hslot, -⟩ := Bitmap.findSlices_exact hcnt P.cnt_ge bm hpos
        exact ⟨slot, hslot⟩
    obtain ⟨slot, hslot⟩ := hdef
    exact ⟨slot, hslot, found_first hpos hslot⟩

/-- **`acquire`** returns null if there is no run of the slices it asks for. -/
theorem acquire_null_iff (hcnt : P.fixedSliceCnt < 2 ^ 31) (size : ℕ)
    (bm : Bitmap P.fixedSliceCnt) : ∃ ptr bm', P.acquire size bm = some (ptr, bm') ∧
      (ptr = none ↔ ∀ p, p + P.slices size ≤ P.fixedSliceCnt → ¬ bm.Run p (P.slices size)) := by
  obtain ⟨slot, hfound, ⟨rfl, hnone⟩ | ⟨p, rfl, hle, hrun, -⟩⟩ := found_exact hcnt size bm
  · exact ⟨none, bm, acquire_null hfound, iff_of_true rfl hnone⟩
  · have hdvd := P.cnt_dvd
    obtain ⟨bm', hop, -⟩ := Bitmap.bitmapOP_spec hdvd .set bm hle (.of_le (by omega))
    refine ⟨_, bm', by rw [acquire_found hfound (by omega), hop]; rfl, ?_⟩
    exact iff_of_false (fun h => by cases h) fun hnone => hnone p hle hrun

/-! ### All slices are taken -/

/-- The bitmap all of whose bits are set. -/
def Params.full (P : Params) : Bitmap P.fixedSliceCnt := Vector.replicate _ (BitVec.allOnes 64)

theorem bit_full (P : Params) {k : ℕ} (hk : k < P.fixedSliceCnt) :
    Bitmap.bit P.full k = true := by
  have hdvd := P.cnt_dvd
  rw [Bitmap.bit, Bitmap.word, Params.full, Vector.getElem?_replicate, if_pos (by omega),
    Option.getD_some, BitVec.getLsbD_allOnes, decide_eq_true (Nat.mod_lt _ (by decide))]

/-- It has no run. -/
theorem not_run_full {p n : ℕ} (hn : 0 < n) (hle : p + n ≤ P.fixedSliceCnt) :
    ¬ Bitmap.Run P.full p n := by
  intro hrun
  have hfree := hrun p le_rfl (by omega)
  rw [bit_full P (by omega)] at hfree
  cases hfree

/-- **A size that wraps**: a pointer is returned though nothing is free. -/
theorem acquire_wraps (hcnt : P.fixedSliceCnt < 2 ^ 31) {size : ℕ} (hsize : size < 2 ^ 64)
    (hwrap : 2 ^ 64 < size + P.sliceSize) :
    ∃ ptr bm', P.acquire size P.full = some (some ptr, bm') := by
  obtain ⟨ptr, bm', hacquire, hnull⟩ := acquire_null_iff hcnt size P.full
  rw [slices_eq_zero hsize hwrap] at hnull
  cases ptr with
  | some ptr => exact ⟨ptr, bm', hacquire⟩
  | none => exact absurd (fun k hk hk' => by omega) (hnull.mp rfl 0 (Nat.zero_le _))

/-- It is not exact. -/
theorem not_exact_wraps (hcnt : P.fixedSliceCnt < 2 ^ 31) {size : ℕ} (hsize : size < 2 ^ 64)
    (hwrap : 2 ^ 64 < size + P.sliceSize) : ¬ Exact P size P.full := by
  intro h
  have hlt := P.size_lt
  obtain ⟨ptr, bm', hacquire⟩ := acquire_wraps hcnt hsize hwrap
  obtain ⟨ptr', bm'', hacquire', hnull⟩ := h.acquire
  obtain ⟨rfl, -⟩ := Prod.mk.inj (Option.some.inj (hacquire.symm.trans hacquire'))
  have hnone := hnull.mpr fun p hp => not_run_full (needed_pos P (by omega)) hp
  cases hnone

/-- Nor is a scan that does not end. -/
theorem not_exact_full (hcnt : 2 ^ 31 ≤ P.fixedSliceCnt) (size : ℕ) : ¬ Exact P size P.full := by
  intro h
  obtain ⟨slot, hslot, -⟩ := h.first 1 le_rfl
  rw [Bitmap.findSlices_full hcnt (fun k => bit_full P) le_rfl] at hslot
  cases hslot

/-- **The searches are exact** for every bitmap exactly if the slices are fewer than `2^31`
and the size does not wrap when it is rounded. -/
theorem exact_iff (P : Params) {size : ℕ} (hsize : size < 2 ^ 64) :
    (∀ bm, Exact P size bm) ↔
      P.fixedSliceCnt < 2 ^ 31 ∧ size + P.sliceSize ≤ 2 ^ 64 := by
  constructor
  · intro h
    have hcnt : P.fixedSliceCnt < 2 ^ 31 := by
      by_contra hcnt
      exact not_exact_full (Nat.not_lt.mp hcnt) size (h P.full)
    refine ⟨hcnt, ?_⟩
    by_contra hwrap
    exact not_exact_wraps hcnt hsize (Nat.lt_of_not_le hwrap) (h P.full)
  · rintro ⟨hcnt, hwrap⟩ bm
    refine ⟨fun n hn => Bitmap.findSlices_exact hcnt P.cnt_ge bm hn,
      fun n hn => Bitmap.findSlices_eq_findLoop P.cnt_ge bm hn,
      Bitmap.findSlices_one P.cnt_dvd hcnt P.cnt_ge bm, ?_⟩
    rw [← slices_eq_needed hwrap]
    exact acquire_null_iff hcnt size bm

/-- The blocks of `main`, the first of them. -/
theorem exact_default : Exact defaultParams 4 defaultParams.initial :=
  (exact_iff defaultParams (by decide)).mpr ⟨by decide, by decide⟩ defaultParams.initial

/-- **Two bitmaps without a free slice**: in one of `2^31` slices `Find<1>()` does not return
where `Find()` does, and `acquire<2^64-1>()` gets a block of the default one. -/
theorem full_not_exact :
    (Bitmap.findSlices largeParams.full 1 = none ∧ ¬ Exact largeParams 1 largeParams.full) ∧
    (∃ ptr bm', defaultParams.acquire (2 ^ 64 - 1) defaultParams.full = some (some ptr, bm')) ∧
      ¬ Exact defaultParams (2 ^ 64 - 1) defaultParams.full := by
  refine ⟨⟨?_, not_exact_full le_rfl 1⟩, ?_, ?_⟩
  · exact Bitmap.findSlices_full le_rfl (fun k => bit_full largeParams) le_rfl
  · exact acquire_wraps (by decide) (by decide) (by decide)
  · exact not_exact_wraps (by decide) (by decide) (by decide)

end LinuxProgram.MemoryAllocatorBitmap
