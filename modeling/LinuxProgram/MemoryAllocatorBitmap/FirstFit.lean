import LinuxProgram.MemoryAllocatorBitmap.BitmapSpec

/-!
# The searches are first fit

What `Find()` and `Find<SLICES>()` return, when they return, is one plus the start of
the first run of free slices that is long enough.  Nothing is assumed of the number of
slices.

* `Run` — a run of free slices, and `First` — the result that is meant.
* `Scanned` — what the loop of `Find<SLICES>()` knows of the slices behind it: the run
  they end in cannot be made longer, and there is none that is long enough.
* `findLoop_first`, `findSlices_first`, `find_first` — the three searches.
-/

namespace LinuxProgram.MemoryAllocatorBitmap.Bitmap

variable {cnt : ℕ} {bm : Bitmap cnt} {p q n m slices bit currentRet maxSoFar : ℕ}

/-- **A run of `n` free slices** that starts at `p`. -/
def Run (bm : Bitmap cnt) (p n : ℕ) : Prop := ∀ k, p ≤ k → k < p + n → bm.bit k = false

/-- **What a search returns**: one plus the start of the first run, or 0. -/
def First (bm : Bitmap cnt) (n slot : ℕ) : Prop :=
  (slot = 0 ∧ ∀ p, p + n ≤ cnt → ¬ bm.Run p n) ∨
    ∃ p, slot = p + 1 ∧ p + n ≤ cnt ∧ bm.Run p n ∧ ∀ q < p, ¬ bm.Run q n

/-- It is not behind any run. -/
theorem First.le {slot : ℕ} (h : bm.First n slot) (hp : p + n ≤ cnt) (hrun : bm.Run p n) :
    slot ≤ p + 1 := by
  rcases h with ⟨rfl, hnone⟩ | ⟨q, rfl, -, -, hfirst⟩
  · exact absurd hrun (hnone p hp)
  · by_contra hlt
    exact hfirst p (by omega) hrun

/-- **What the loop knows** before it comes to `bit`. -/
structure Scanned (bm : Bitmap cnt) (slices bit currentRet maxSoFar : ℕ) : Prop where
  run : bm.Run (bit - currentRet) currentRet
  maximal : currentRet < bit → bm.bit (bit - currentRet - 1) = true
  none : ∀ p, p + slices ≤ bit → ¬ bm.Run p slices
  bit_le : currentRet ≤ bit
  max_le : currentRet ≤ maxSoFar
  max_lt : maxSoFar < slices

/-- The slice at `bit` is taken. -/
theorem Scanned.taken (h : bm.Scanned slices bit currentRet maxSoFar)
    (hbit : bm.bit bit = true) : bm.Scanned slices (bit + 1) 0 maxSoFar where
  run k hk hk' := by omega
  maximal _ := hbit
  none p hp hrun := by
    have hmax := h.max_lt
    rcases Nat.lt_or_ge bit (p + slices) with hlt | hge
    · rw [hrun bit (by omega) hlt] at hbit
      cases hbit
    · exact h.none p hge hrun
  bit_le := Nat.zero_le _
  max_le := Nat.zero_le _
  max_lt := h.max_lt

/-- A run that ends at `bit` is not longer than the one the loop has counted. -/
theorem Scanned.le_of_run (h : bm.Scanned slices bit currentRet maxSoFar)
    (hrun : bm.Run p n) (hp : p + n = bit + 1) : n ≤ currentRet + 1 := by
  by_contra hlt
  have htaken := h.maximal (by omega)
  rw [hrun _ (by omega) (by omega)] at htaken
  cases htaken

/-- The run goes on. -/
theorem Scanned.run_succ (h : bm.Scanned slices bit currentRet maxSoFar)
    (hbit : bm.bit bit = false) : bm.Run (bit + 1 - (currentRet + 1)) (currentRet + 1) := by
  intro k hk hk'
  have hle := h.bit_le
  rcases Nat.lt_or_ge k bit with hlt | hge
  · exact h.run k (by omega) (by omega)
  · rw [show k = bit by omega]
    exact hbit

/-- The slice at `bit` is free, and the run is still too short. -/
theorem Scanned.free (h : bm.Scanned slices bit currentRet maxSoFar)
    (hbit : bm.bit bit = false) (hlt : max (currentRet + 1) maxSoFar < slices) :
    bm.Scanned slices (bit + 1) (currentRet + 1) (max (currentRet + 1) maxSoFar) where
  run := h.run_succ hbit
  maximal hcur := by
    have htaken := h.maximal (by omega)
    rwa [show bit + 1 - (currentRet + 1) - 1 = bit - currentRet - 1 by omega]
  none p hp hrun := by
    rcases Nat.lt_or_ge bit (p + slices) with hend | hend
    · have hlen := h.le_of_run hrun (by omega)
      omega
    · exact h.none p hend hrun
  bit_le := Nat.succ_le_succ h.bit_le
  max_le := le_max_left _ _
  max_lt := hlt

/-- The slice at `bit` is free, and the run is as long as was asked for. -/
theorem Scanned.first (h : bm.Scanned slices bit currentRet maxSoFar)
    (hbit : bm.bit bit = false) (hlt : bit < cnt)
    (hfound : max (currentRet + 1) maxSoFar = slices) :
    bm.First slices (bit + 1 - slices + 1) := by
  have hmax := h.max_lt
  have hle := h.bit_le
  obtain rfl : slices = currentRet + 1 := by omega
  refine .inr ⟨bit + 1 - (currentRet + 1), rfl, by omega, h.run_succ hbit, fun q hq hrun => ?_⟩
  exact h.none q (by omega) hrun

/-- **The loop of `Find<SLICES>()`.** -/
theorem findLoop_first (left : ℕ) {data : BitVec 64} (hleft : bit + left = cnt)
    (hdata : bm.Loaded bit data) (h : bm.Scanned slices bit currentRet maxSoFar) {slot : ℕ}
    (hslot : bm.findLoop slices left bit data currentRet maxSoFar = some slot) :
    bm.First slices slot := by
  induction left generalizing bit data currentRet maxSoFar with
  | zero =>
      rw [findLoop, Option.some_inj] at hslot
      subst hslot
      exact .inl ⟨rfl, fun p hp => h.none p (by omega)⟩
  | succ left ih =>
      rw [findLoop] at hslot
      simp only [hdata.load] at hslot
      split at hslot
      · cases hslot
      · split at hslot
        · rename_i htest
          rw [test_bit (Nat.mod_lt _ (by decide))] at htest
          exact ih (by omega) (bm.loaded_succ bit) (h.taken htest) hslot
        · rename_i htest
          rw [test_bit (Nat.mod_lt _ (by decide)), Bool.not_eq_true] at htest
          split at hslot
          · rename_i hfound
            rw [Option.some_inj] at hslot
            subst hslot
            exact h.first htest (by omega) hfound
          · rename_i hshort
            have hmax := h.max_lt
            have hcur := h.max_le
            exact ih (by omega) (bm.loaded_succ bit) (h.free htest (by omega)) hslot

/-- **`Find<SLICES>()`**, whose shortcut looks at the start of the first word. -/
theorem findSlices_first (hcnt : 64 ≤ cnt) (hpos : 0 < slices) {slot : ℕ}
    (hslot : bm.findSlices slices = some slot) : bm.First slices slot := by
  rw [findSlices] at hslot
  split at hslot
  · refine (findLoop_first cnt (Nat.zero_add _) (fun h => absurd rfl h) ?_ hslot)
    refine ⟨fun k _ hk => absurd hk (Nat.not_lt_zero k), fun h => absurd h (lt_irrefl 0), ?_,
      le_rfl, le_rfl, hpos⟩
    intro p hp
    omega
  · rename_i htz
    have hle := tzcnt_le (bm.word 0)
    rw [Option.some_inj] at hslot
    subst hslot
    refine .inr ⟨0, rfl, by omega, fun k _ hk => ?_, fun q hq => absurd hq (Nat.not_lt_zero q)⟩
    exact bit_of_lt_tzcnt (by omega)

/-- **`Find()`.** -/
theorem find_first (hdvd : 64 ∣ cnt) : bm.First 1 bm.find := by
  have hone : ∀ p, bm.Run p 1 ↔ bm.bit p = false := by
    intro p
    constructor
    · exact fun h => h p le_rfl (Nat.lt_succ_self p)
    · intro h k hk hk'
      rwa [show k = p by omega]
  rcases bm.find_spec hdvd with ⟨hzero, hfull⟩ | ⟨p, hp, hfind, hfree, htaken⟩
  · refine .inl ⟨hzero, fun p hp => ?_⟩
    rw [hone, hfull p (by omega)]
    nofun
  · refine .inr ⟨p, hfind, by omega, (hone p).mpr hfree, fun q hq => ?_⟩
    rw [hone, htaken q hq]
    nofun

end LinuxProgram.MemoryAllocatorBitmap.Bitmap
