import LinuxProgram.Lib.Loops
import LinuxProgram.MemoryAllocatorBitmap.InStorage

/-!
# The range update is exact

`BitmapOP` counts the bits in a `size_t`, and the words in an `int`.

* `RangeExact` — `BitmapOP<SET>(NR, bits)` and `BitmapOP<CLEAR>(NR, bits)` write the bits of
  their range and leave all others alone.
* `bitmapOP_low` — no word from number `2^31` on is ever written.
* `bitmapOP_end` — a range that ends right before that word is not written to its end either.
* `rangeExact_iff` — those are the ranges for which it is not exact.
-/

namespace LinuxProgram.MemoryAllocatorBitmap

variable {P : Params}

/-- **The update of the bits from `nr` to `nr + bits` is exact**, for every bitmap: it is defined,
writes that range and nothing else, and clearing it takes back what setting it has done. -/
structure RangeExact (P : Params) (nr bits : ℕ) : Prop where
  /-- These bits are written, and no others. -/
  writes : ∀ op (bm : Bitmap P.fixedSliceCnt), ∃ bm', bm.bitmapOP op nr bits = some bm' ∧
    Bitmap.Writes op.value (Set.Ico nr (nr + bits)) bm bm'
  /-- A free range that is set and cleared is as before. -/
  restores : ∀ bm : Bitmap P.fixedSliceCnt, bm.Run nr bits →
    ((bm.bitmapOP .set nr bits).bind fun bm => bm.bitmapOP .clear nr bits) = some bm

namespace Bitmap

variable {cnt nr bits : ℕ} {bm bm' bm'' : Bitmap cnt} {op : BitOp}

/-- What was free is free again. -/
theorem Writes.restores {A : Set ℕ} (hdvd : 64 ∣ cnt) (hfree : ∀ k ∈ A, bm.bit k = false)
    (hset : Writes true A bm bm') (hclear : Writes false A bm' bm'') : bm'' = bm := by
  apply ext_bit hdvd
  intro k _
  by_cases hk : k ∈ A
  · rw [hclear.inside k hk, hfree k hk]
  · rw [hclear.outside k hk, hset.outside k hk]

/-! ### The words that are never written -/

theorem toInt_lt (x : ℤ) : toInt x < 2 ^ 31 := by
  have h : toInt x < (2 ^ 32 + 1) / 2 := Int.bmod_lt (by decide)
  exact h.trans_eq (by decide)

theorem addInt_lt {x y z : ℤ} (h : addInt x y = some z) : z = x + y ∧ z < 2 ^ 31 := by
  rw [addInt] at h
  split at h
  · rename_i hlt
    obtain rfl := Option.some.inj h
    exact ⟨rfl, hlt.2⟩
  · cases h

/-- The bits from word `2^31` on. -/
def SameHigh (bm bm' : Bitmap cnt) : Prop := ∀ k, 2 ^ 37 ≤ k → bm'.bit k = bm.bit k

theorem SameHigh.trans (h : SameHigh bm bm') (h' : SameHigh bm' bm'') : SameHigh bm bm'' := by
  intro k hk
  rw [h' k hk, h k hk]

/-- A write to another word. -/
theorem update_low {pos : ℤ} {f : BitVec 64 → BitVec 64} (hpos : pos < 2 ^ 31)
    (h : bm.update pos f = some bm') : SameHigh bm bm' := by
  intro k hk
  rw [update] at h
  split at h
  · split at h
    · obtain rfl := Option.some.inj h
      rw [bit, bit, word, word, Vector.getElem?_set, if_neg (by omega)]
    · cases h
  · cases h

/-- A loop of such writes. -/
theorem foldlM_low {ι : Type} {f : Bitmap cnt → ι → Option (Bitmap cnt)} (l : List ι)
    (hf : ∀ i ∈ l, ∀ bm bm', f bm i = some bm' → SameHigh bm bm')
    (h : l.foldlM f bm = some bm') : SameHigh bm bm' := by
  refine Lib.foldlM_invariant (I := SameHigh bm) (fun i hi bm₁ bm₂ hlow h₁ => ?_) h fun k _ => rfl
  exact hlow.trans (hf i hi bm₁ bm₂ h₁)

/-- **No word from number `2^31` on is written.** -/
theorem bitmapOP_low (h : bm.bitmapOP op nr bits = some bm') : SameHigh bm bm' := by
  rw [bitmapOP] at h
  obtain ⟨bm₁, h₁, h⟩ := Option.bind_eq_some_iff.mp h
  have hleft : SameHigh bm bm₁ :=
    foldlM_low _ (fun i _ _ _ hi => update_low (toInt_lt _) hi) h₁
  split at h
  · obtain rfl := Option.some.inj h
    exact hleft
  · obtain ⟨pos, hpos, h⟩ := Option.bind_eq_some_iff.mp h
    obtain ⟨last, hlast, h⟩ := Option.bind_eq_some_iff.mp h
    obtain ⟨bm₂, h₂, h₃⟩ := Option.bind_eq_some_iff.mp h
    obtain ⟨rfl, hlt⟩ := addInt_lt hlast
    have hmiddle : SameHigh bm₁ bm₂ := by
      refine foldlM_low _ (fun i hi _ _ hupdate => update_low ?_ hupdate) h₂
      rw [List.mem_range] at hi
      omega
    have hright : SameHigh bm₂ bm' :=
      foldlM_low _ (fun i _ _ _ hupdate => update_low hlt hupdate) h₃
    exact (hleft.trans hmiddle).trans hright

/-- **A range that ends before that word** ends at `pos + bytes`, which overflows. -/
theorem bitmapOP_end (hend : nr + bits = 2 ^ 37) (hnr : nr / 64 + 1 < 2 ^ 31) :
    bm.bitmapOP op nr bits = none := by
  have hpos : toInt (nr / 64 : ℕ) = (nr / 64 : ℕ) := toInt_eq (by omega) (by omega)
  have hmod : (nr + bits) % 2 ^ 64 = nr + bits := Nat.mod_eq_of_lt (by omega)
  have hleft : (nr / 64 + 1) * 64 % 2 ^ 64 = (nr / 64 + 1) * 64 := Nat.mod_eq_of_lt (by omega)
  have hlast : addInt (((nr / 64 : ℕ) : ℤ) + 1)
      (toInt (((nr + bits) / 64 : ℕ) - (((nr / 64 : ℕ) : ℤ) + 1))) = none := by
    rw [toInt_eq (by omega) (by omega)]
    exact if_neg (by omega)
  rw [bitmapOP, hmod, hleft, hpos]
  refine Option.bind_eq_none_iff.mpr fun bm₁ _ => ?_
  rw [if_neg (by omega), addInt_eq (by omega) (by omega)]
  simp only [Option.bind_eq_bind, Option.bind_some, hlast, Option.bind_none]

/-- A range of one bit. -/
theorem bitmapOP_one (hnr : (nr / 64 + 1) * 64 < 2 ^ 64) :
    bm.bitmapOP op nr 1 = bm.update (toInt (nr / 64 : ℕ)) (op.onBit (nr &&& 0x3F)) := by
  have hend : (nr + 1) % 2 ^ 64 = nr + 1 := Nat.mod_eq_of_lt (by omega)
  have hleft : (nr / 64 + 1) * 64 % 2 ^ 64 = (nr / 64 + 1) * 64 := Nat.mod_eq_of_lt hnr
  have hle : nr + 1 ≤ (nr / 64 + 1) * 64 := by omega
  rw [bitmapOP, hend, hleft, min_eq_left hle, Nat.add_sub_cancel_left]
  simp only [if_pos hle, List.range'_one, List.foldlM_cons, List.foldlM_nil, bind_pure]

end Bitmap

/-! ### Ranges that are written exactly -/

/-- The bits of a range are written, if an `int` counts its words. -/
theorem rangeExact_of_addressed {nr bits : ℕ} (hle : nr + bits ≤ P.fixedSliceCnt)
    (h : Bitmap.Addressed nr bits) : RangeExact P nr bits where
  writes op bm := Bitmap.bitmapOP_spec P.cnt_dvd op bm hle h
  restores bm hfree := by
    obtain ⟨bm₁, h₁, hset⟩ := Bitmap.bitmapOP_spec P.cnt_dvd .set bm hle h
    obtain ⟨bm₂, h₂, hclear⟩ := Bitmap.bitmapOP_spec P.cnt_dvd .clear bm₁ hle h
    rw [h₁, Option.bind_some, h₂]
    exact congrArg some (hset.restores P.cnt_dvd (fun k hk => hfree k hk.1 hk.2) hclear)

/-- A bit from word `2^31` on is not among them. -/
theorem RangeExact.end_le {nr bits : ℕ} (h : RangeExact P nr bits) (hbits : 1 ≤ bits) :
    nr + bits ≤ 2 ^ 37 := by
  by_contra hlt
  obtain ⟨bm', hop, hw⟩ := h.writes .set P.initial
  -- the last bit should be set, and is as it was
  have hset : bm'.bit (nr + bits - 1) = true :=
    hw.inside _ (Set.mem_Ico.mpr ⟨by omega, by omega⟩)
  rw [Bitmap.bitmapOP_low hop _ (by omega), bit_initial] at hset
  cases hset

/-- **`BitmapOP` is exact** exactly for the ranges whose words an `int` counts.  For any other range
the number of a word becomes negative, and the call is undefined or leaves the word out. -/
theorem rangeExact_iff (P : Params) {nr bits : ℕ} (hbits : 1 ≤ bits)
    (hle : nr + bits ≤ P.fixedSliceCnt) : RangeExact P nr bits ↔
      nr / 64 < 2 ^ 31 ∧ (nr + bits ≤ (nr / 64 + 1) * 64 ∨ (nr + bits) / 64 < 2 ^ 31) := by
  refine ⟨fun h => ?_, rangeExact_of_addressed hle⟩
  have hend := h.end_le hbits
  refine ⟨by omega, ?_⟩
  by_contra hspan
  obtain ⟨bm', hop, -⟩ := h.writes .set P.initial
  rw [Bitmap.bitmapOP_end (by omega) (by omega)] at hop
  cases hop

/-- The bits of the first two words and one more. -/
theorem rangeExact_words : RangeExact defaultParams 0 129 :=
  (rangeExact_iff defaultParams (by decide) (by decide)).mpr ⟨by decide, .inr (by decide)⟩

/-- `MemoryRingBuffer<2^38+64, 64>`. -/
def hugeParams : Params where
  fixedSliceCnt := 2 ^ 38 + 64
  sliceSize := 64
  cnt_pos := by decide
  cnt_dvd := by decide
  cnt_lt := by decide
  size_pos := largeParams.size_pos
  size_lt := largeParams.size_lt

/-- **Two ranges that are not**: for bit `2^38` the number of the word is converted to 0, and
for the bits before `2^37` the end of the words overflows. -/
theorem range_not_exact :
    (∃ bm, Bitmap.bitmapOP .set hugeParams.initial (2 ^ 38) 1 = some bm ∧
      bm.bit 0 = true ∧ bm.bit (2 ^ 38) = false) ∧
    Bitmap.bitmapOP .set hugeParams.initial 0 (2 ^ 37) = none ∧
    ¬ RangeExact hugeParams (2 ^ 38) 1 ∧ ¬ RangeExact hugeParams 0 (2 ^ 37) := by
  refine ⟨?_, Bitmap.bitmapOP_end (Nat.zero_add _) (by decide), fun h => ?_, fun h => ?_⟩
  · have hword : toInt (2 ^ 38 / 64 : ℕ) = (0 : ℕ) := by decide
    obtain ⟨bm, hop, hw⟩ := Bitmap.update_onBit (p := 0) (b := 2 ^ 38 &&& 0x3F)
      (show 0 < hugeParams.fixedSliceCnt / 64 by decide) (by decide) .set hugeParams.initial
    refine ⟨bm, ?_, hw.inside 0 rfl, ?_⟩
    · rw [Bitmap.bitmapOP_one (by decide), hword]
      exact hop
    · rw [hw.outside _ (by decide), bit_initial]
  · exact absurd (h.end_le le_rfl) (by decide)
  · obtain ⟨bm, hop, -⟩ := h.writes .set hugeParams.initial
    rw [Bitmap.bitmapOP_end (Nat.zero_add _) (by decide)] at hop
    cases hop

end LinuxProgram.MemoryAllocatorBitmap
