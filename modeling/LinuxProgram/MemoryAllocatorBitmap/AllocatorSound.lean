import LinuxProgram.MemoryAllocatorBitmap.BitmapSpec

/-!
# The bitmap allocator over whole sequences of calls

`Sound` says what the allocator is for: blocks that are live do not overlap, the
bitmap says which slices they take, and `size` and `empty` count what is left.

* `Inv` — the live blocks are placed on slices of the storage, no slice is taken
  twice, and the bits that are set are the slices that are taken.  This is the
  invariant of a list of separate blocks (`Lib.Allocation`), with `bitmapOP` for the
  two operations (`taken_set`, `taken_clear`).
* `sound_iff` — every sequence of calls is sound exactly if the number of slices
  fits an `int` and the storage fits the address space.  For more slices the `int`
  in `acquire` does not hold the slot (`unsound_run`).
-/

namespace LinuxProgram.MemoryAllocatorBitmap

open Lib Allocation

variable {P : Params}

/-! ### Soundness of a state

A user sees addresses and sizes, the allocator bits.  `Sound` is stated in the former, with the
answers of `size` and `empty` and that the next call is defined; `Inv` is in the latter, and is
what the calls keep. -/

/-- The addresses of a block, from its pointer on and as many as its slices have. -/
def Block.addresses (P : Params) (b : Block) : Finset ℕ :=
  Finset.Ico b.ptr (b.ptr + b.slices * P.sliceSize)

/-- **What a user of the allocator relies on.**  Slice `k` is at
`mStorage + SLICE_SIZE * (k + 1)`. -/
structure Sound (P : Params) (s : State P) : Prop where
  /-- No call is undefined. -/
  acquire_defined : ∀ size, 1 ≤ size → size < 2 ^ 64 → (P.acquire size s.mFreeBitMap).isSome
  release_defined : ∀ size ptr, 1 ≤ size → size < 2 ^ 64 → ⟨ptr, P.slices size⟩ ∈ s.live →
    (P.release size ptr s.mFreeBitMap).isSome
  /-- Live blocks do not overlap. -/
  separate : Separate (Block.addresses P) s.live
  /-- A bit is set exactly if its slice belongs to a live block. -/
  bits : ∀ k < P.fixedSliceCnt, s.mFreeBitMap.bit k = true ↔
    ∃ b ∈ s.live, P.sliceSize * (k + 1) ∈ b.addresses P
  size : s.mFreeBitMap.size + (s.live.map Block.slices).sum = P.fixedSliceCnt
  empty : s.mFreeBitMap.empty = true ↔ s.mFreeBitMap.size = 0
  /-- When everything is released the bitmap is as it was. -/
  released : s.live = [] → s.mFreeBitMap = P.initial

/-! ### The invariant -/

/-- The slices of a block. -/
def Block.cells (P : Params) (b : Block) : Finset ℕ :=
  Finset.Ico (b.ptr / P.sliceSize - 1) (b.ptr / P.sliceSize - 1 + b.slices)

/-- A block that starts at slice `p`. -/
def Params.blockAt (P : Params) (p slices : ℕ) : Block := ⟨P.sliceSize * (p + 1), slices⟩

theorem cells_blockAt (P : Params) (p slices : ℕ) :
    (P.blockAt p slices).cells P = Finset.Ico p (p + slices) := by
  rw [Block.cells, Params.blockAt, Nat.mul_div_cancel_left _ P.size_pos, Nat.add_sub_cancel]

/-- **The invariant of the allocator.** The live blocks are whole slices of the storage and have no
slice in common, and the bits that are set are those of their slices. -/
structure Inv (P : Params) (s : State P) : Prop where
  placed : ∀ b ∈ s.live, ∃ p, b = P.blockAt p b.slices ∧ p + b.slices ≤ P.fixedSliceCnt
  separate : Separate (Block.cells P) s.live
  taken : s.mFreeBitMap.taken = occupied (Block.cells P) s.live

theorem bit_initial (P : Params) (k : ℕ) : Bitmap.bit P.initial k = false := by
  rw [Bitmap.bit, Bitmap.word, Params.initial, Vector.getElem?_replicate]
  split <;> simp

theorem inv_initial (P : Params) : Inv P { mFreeBitMap := P.initial, live := [] } where
  placed b hb := by cases hb
  separate := separate_nil
  taken := by simp [Bitmap.taken, bit_initial]

/-! ### The bits that are set -/

namespace Bitmap

variable {cnt : ℕ} {bm bm' : Bitmap cnt} {p n : ℕ}

theorem mem_taken {k : ℕ} : k ∈ bm.taken ↔ k < cnt ∧ bm.bit k = true := by
  rw [taken, Finset.mem_filter, Finset.mem_range]

/-- Setting bits. -/
theorem taken_set (h : Writes true (Set.Ico p (p + n)) bm bm') (hle : p + n ≤ cnt) :
    bm'.taken = Finset.Ico p (p + n) ∪ bm.taken := by
  ext k
  rw [Finset.mem_union, mem_taken, mem_taken, Finset.mem_Ico]
  by_cases hk : k ∈ Set.Ico p (p + n)
  · rw [h.inside k hk]
    rw [Set.mem_Ico] at hk
    exact iff_of_true ⟨by omega, rfl⟩ (.inl hk)
  · rw [h.outside k hk]
    rw [Set.mem_Ico] at hk
    exact (or_iff_right hk).symm

/-- Clearing bits. -/
theorem taken_clear (h : Writes false (Set.Ico p (p + n)) bm bm') :
    bm'.taken = bm.taken \ Finset.Ico p (p + n) := by
  ext k
  rw [Finset.mem_sdiff, mem_taken, mem_taken, Finset.mem_Ico]
  by_cases hk : k ∈ Set.Ico p (p + n)
  · rw [h.inside k hk]
    rw [Set.mem_Ico] at hk
    exact iff_of_false (fun h => by cases h.2) fun h => h.2 hk
  · rw [h.outside k hk]
    rw [Set.mem_Ico] at hk
    exact (and_iff_left hk).symm

end Bitmap

/-! ### acquire and release

The slot that a search returns goes through an `int`, in which it is one more than the number of
the first slice.  If it fits, `acquire` is a write of the bits of free slices, and `release` one
of the bits of a block that is live. -/

/-- The template arguments for which every slot fits an `int` and every block the
address space. -/
def Params.Fits (P : Params) : Prop :=
  P.fixedSliceCnt < 2 ^ 31 ∧ P.fixedSliceCnt * P.sliceSize < 2 ^ 64

theorem Params.cnt_ge (P : Params) : 64 ≤ P.fixedSliceCnt := Nat.le_of_dvd P.cnt_pos P.cnt_dvd

/-- The pointer to slice `p`. -/
theorem Params.ptr_lt (P : Params) (hfit : P.Fits) {p : ℕ} (hp : p < P.fixedSliceCnt) :
    P.sliceSize * (p + 1) < 2 ^ 64 :=
  calc P.sliceSize * (p + 1) ≤ P.sliceSize * P.fixedSliceCnt := Nat.mul_le_mul_left _ hp
    _ = P.fixedSliceCnt * P.sliceSize := Nat.mul_comm _ _
    _ < 2 ^ 64 := hfit.2

/-- What both searches return. -/
theorem found_spec (hfit : P.Fits) (size : ℕ) (bm : Bitmap P.fixedSliceCnt) :
    ∃ slot, P.found size bm = some slot ∧ bm.FreeAt (P.slices size) slot := by
  rw [Params.found]
  split
  · rename_i h1
    refine ⟨bm.find, rfl, ?_⟩
    rcases bm.find_spec P.cnt_dvd with ⟨h0, -⟩ | ⟨p, hp, hfind, hfree, -⟩
    · exact .inl h0
    · refine .inr ⟨p, hp, hfind, by omega, fun k hk hk' => ?_⟩
      obtain rfl : k = p := by omega
      exact hfree
  · exact bm.findSlices_spec hfit.1 P.cnt_ge _

/-- `acquire` when the search fails. -/
theorem acquire_null {size : ℕ} {bm : Bitmap P.fixedSliceCnt} (h : P.found size bm = some 0) :
    P.acquire size bm = some (none, bm) := by
  have hslot : toInt (0 : ℕ) = 0 := Bitmap.toInt_eq le_rfl (by omega)
  rw [Params.acquire, h, Option.bind_some, hslot]
  exact if_pos rfl

/-- `acquire` when the search ends within the range of an `int`. -/
theorem acquire_found {size p : ℕ} {bm : Bitmap P.fixedSliceCnt}
    (h : P.found size bm = some (p + 1)) (hp : p + 1 < 2 ^ 31) :
    P.acquire size bm = (bm.bitmapOP .set p (P.slices size)).map fun bm' =>
      (some (P.sliceSize * (p + 1) % 2 ^ 64), bm') := by
  have hslot : toInt (p + 1 : ℕ) = (p + 1 : ℕ) := Bitmap.toInt_eq (by omega) (by omega)
  have hnr : (((p + 1 : ℕ) - 1 : ℤ) % 2 ^ 64).toNat = p := by omega
  have hptr : ((P.sliceSize : ℤ) * (p + 1 : ℕ) % 2 ^ 64).toNat
      = P.sliceSize * (p + 1) % 2 ^ 64 := by
    rw [← Nat.cast_mul]
    omega
  rw [Params.acquire, h, Option.bind_some, hslot, Params.acquireAt, if_neg (by omega),
    if_neg (by omega), hnr, hptr]

/-- `acquire` when it ends at the first slot that is not. -/
theorem acquire_overflow {size : ℕ} {bm : Bitmap P.fixedSliceCnt}
    (h : P.found size bm = some (2 ^ 31)) : P.acquire size bm = none := by
  have hslot : toInt (2 ^ 31 : ℕ) = -2 ^ 31 := by decide
  rw [Params.acquire, h, Option.bind_some, hslot]
  rfl

/-- **`acquire`** either returns null or sets the bits of free slices. -/
theorem acquire_spec (hfit : P.Fits) (size : ℕ) (bm : Bitmap P.fixedSliceCnt) :
    P.acquire size bm = some (none, bm) ∨ ∃ p bm',
      P.acquire size bm = some (some (P.sliceSize * (p + 1)), bm') ∧
      p + P.slices size ≤ P.fixedSliceCnt ∧
      (∀ k, p ≤ k → k < p + P.slices size → bm.bit k = false) ∧
      Bitmap.Writes true (Set.Ico p (p + P.slices size)) bm bm' := by
  have h31 := hfit.1
  obtain ⟨slot, hfound, rfl | ⟨p, hp, rfl, hle, hfree⟩⟩ := found_spec hfit size bm
  · exact .inl (acquire_null hfound)
  · obtain ⟨bm', hop, hw⟩ := Bitmap.bitmapOP_spec P.cnt_dvd .set bm hle (.of_le (by omega))
    refine .inr ⟨p, bm', ?_, hle, hfree, hw⟩
    rw [acquire_found hfound (by omega), hop, Nat.mod_eq_of_lt (P.ptr_lt hfit hp)]
    rfl

/-- **`release`** clears the bits of a block. -/
theorem release_spec (hfit : P.Fits) {size p : ℕ} (hle : p + P.slices size ≤ P.fixedSliceCnt)
    (bm : Bitmap P.fixedSliceCnt) :
    ∃ bm', P.release size (P.sliceSize * (p + 1)) bm = some bm' ∧
      Bitmap.Writes false (Set.Ico p (p + P.slices size)) bm bm' := by
  have h31 := hfit.1
  have hdiff : P.sliceSize * (p + 1) / P.sliceSize = p + 1 := Nat.mul_div_cancel_left _ P.size_pos
  have hround : P.round2SliceSize size = P.slices size := Nat.mod_eq_of_lt (by omega)
  have hnr : (p + 1 + (2 ^ 64 - 1)) % 2 ^ 64 = p := by omega
  rw [Params.release]
  simp only [hdiff, hround, hnr]
  exact Bitmap.bitmapOP_spec P.cnt_dvd .clear bm hle (.of_le (by omega))

/-! ### Every call keeps the invariant -/

variable {s s' : State P}

/-- A block on free slices is acquired. -/
theorem Inv.cons (h : Inv P s) {p n : ℕ} {bm' : Bitmap P.fixedSliceCnt}
    (hle : p + n ≤ P.fixedSliceCnt)
    (hfree : ∀ k, p ≤ k → k < p + n → s.mFreeBitMap.bit k = false)
    (hw : Bitmap.Writes true (Set.Ico p (p + n)) s.mFreeBitMap bm') :
    Inv P { mFreeBitMap := bm', live := P.blockAt p n :: s.live } where
  placed b hb := by
    rcases List.mem_cons.mp hb with rfl | hb
    · exact ⟨p, rfl, hle⟩
    · exact h.placed b hb
  separate := by
    refine h.separate.cons ?_
    rw [← h.taken, cells_blockAt, Finset.disjoint_left]
    intro k hk htaken
    rw [Finset.mem_Ico] at hk
    rw [Bitmap.mem_taken, hfree k hk.1 hk.2] at htaken
    cases htaken.2
  taken := by
    rw [occupied_cons, ← h.taken, cells_blockAt]
    exact Bitmap.taken_set hw hle

/-- A live block is released. -/
theorem Inv.erase (h : Inv P s) {p n : ℕ} {bm' : Bitmap P.fixedSliceCnt}
    (hb : P.blockAt p n ∈ s.live)
    (hw : Bitmap.Writes false (Set.Ico p (p + n)) s.mFreeBitMap bm') :
    Inv P { mFreeBitMap := bm', live := s.live.erase (P.blockAt p n) } where
  placed b hb := h.placed b (List.mem_of_mem_erase hb)
  separate := h.separate.erase _
  taken := by
    rw [h.separate.occupied_erase hb, ← h.taken, cells_blockAt]
    exact Bitmap.taken_clear hw

/-- A live block, from the call that releases it. -/
theorem Inv.released (h : Inv P s) {size ptr : ℕ} (hmem : ⟨ptr, P.slices size⟩ ∈ s.live) :
    ∃ p, ptr = P.sliceSize * (p + 1) ∧ p + P.slices size ≤ P.fixedSliceCnt := by
  obtain ⟨p, hp, hle⟩ := h.placed _ hmem
  exact ⟨p, congrArg Block.ptr hp, hle⟩

/-- **Every call keeps the invariant.** -/
theorem Inv.next (hfit : P.Fits) (h : Inv P s) {c : Call}
    (hs : MemoryAllocatorBitmap.next P c s = some s') : Inv P s' := by
  cases c with
  | acquire size =>
      rw [MemoryAllocatorBitmap.next] at hs
      split at hs
      · rcases acquire_spec hfit size s.mFreeBitMap with hacq | ⟨p, bm', hacq, hle, hfree, hw⟩
        · rw [hacq] at hs
          cases hs
          exact h
        · rw [hacq] at hs
          cases hs
          exact h.cons hle hfree hw
      · cases hs
  | release size ptr =>
      rw [MemoryAllocatorBitmap.next] at hs
      split at hs
      · rename_i hcall
        obtain ⟨p, rfl, hle⟩ := h.released hcall.2.2
        obtain ⟨bm', hrel, hw⟩ := release_spec hfit hle s.mFreeBitMap
        rw [hrel] at hs
        cases hs
        exact h.erase hcall.2.2 hw
      · cases hs

/-! ### The invariant says that the state is sound -/

theorem mem_addresses {p n x : ℕ} : x ∈ (P.blockAt p n).addresses P ↔
    p + 1 ≤ x / P.sliceSize ∧ x / P.sliceSize < p + 1 + n := by
  rw [Block.addresses, Params.blockAt, Finset.mem_Ico, Nat.le_div_iff_mul_le P.size_pos,
    Nat.div_lt_iff_lt_mul P.size_pos, Nat.add_mul (p + 1) n, Nat.mul_comm P.sliceSize]

/-- Blocks without a common slice do not overlap. -/
theorem disjoint_addresses {p n q m : ℕ}
    (h : Disjoint ((P.blockAt p n).cells P) ((P.blockAt q m).cells P)) :
    Disjoint ((P.blockAt p n).addresses P) ((P.blockAt q m).addresses P) := by
  rw [cells_blockAt, cells_blockAt, Finset.disjoint_left] at h
  rw [Finset.disjoint_left]
  intro x hx hx'
  rw [mem_addresses] at hx hx'
  refine h (a := x / P.sliceSize - 1) ?_ ?_ <;> rw [Finset.mem_Ico] <;> omega

theorem Inv.separate_addresses (h : Inv P s) : Separate (Block.addresses P) s.live := by
  refine List.Pairwise.imp_of_mem (fun {a b} ha hb hab => ?_) h.separate
  obtain ⟨p, hp, -⟩ := h.placed a ha
  obtain ⟨q, hq, -⟩ := h.placed b hb
  rw [hp, hq] at hab ⊢
  exact disjoint_addresses hab

/-- The bits by addresses. -/
theorem Inv.bit_iff (h : Inv P s) {k : ℕ} (hk : k < P.fixedSliceCnt) :
    s.mFreeBitMap.bit k = true ↔ ∃ b ∈ s.live, P.sliceSize * (k + 1) ∈ b.addresses P := by
  have hmem : s.mFreeBitMap.bit k = true ↔ k ∈ s.mFreeBitMap.taken := by
    rw [Bitmap.mem_taken]
    exact (and_iff_right hk).symm
  rw [hmem, h.taken, mem_occupied]
  refine exists_congr fun b => and_congr_right fun hb => ?_
  obtain ⟨p, hp, -⟩ := h.placed b hb
  rw [hp, cells_blockAt, mem_addresses, Nat.mul_div_cancel_left _ P.size_pos, Finset.mem_Ico]
  omega

theorem Inv.size_eq (h : Inv P s) :
    s.mFreeBitMap.size + (s.live.map Block.slices).sum = P.fixedSliceCnt := by
  have hcard : s.mFreeBitMap.taken.card = (s.live.map Block.slices).sum := by
    rw [h.taken, h.separate.card_occupied]
    congr 1
    apply List.map_congr_left
    intro b _
    rw [Block.cells, Nat.card_Ico, Nat.add_sub_cancel_left]
  rw [← hcard]
  exact s.mFreeBitMap.size_add_card P.cnt_dvd

/-- `empty` is right about `size` whatever the bits are. -/
theorem empty_iff_size (bm : Bitmap P.fixedSliceCnt) : bm.empty = true ↔ bm.size = 0 := by
  have hcard := bm.size_add_card P.cnt_dvd
  have hfull : bm.empty = true ↔ bm.taken = Finset.range P.fixedSliceCnt := by
    rw [bm.empty_iff P.cnt_dvd, Bitmap.taken, Finset.filter_eq_self]
    simp only [Finset.mem_range]
  rw [hfull]
  constructor
  · intro h
    rw [h, Finset.card_range] at hcard
    omega
  · intro h
    refine Finset.eq_of_subset_of_card_le (Finset.filter_subset _ _) ?_
    rw [Finset.card_range]
    omega

/-- A bitmap without a bit is the initial one. -/
theorem eq_initial {bm : Bitmap P.fixedSliceCnt} (h : bm.taken = ∅) : bm = P.initial := by
  apply Bitmap.ext_bit P.cnt_dvd
  intro k hk
  rw [bit_initial]
  by_contra hbit
  have hmem : k ∈ bm.taken := Bitmap.mem_taken.mpr ⟨hk, by simpa using hbit⟩
  rw [h] at hmem
  cases hmem

/-- **Every state the invariant holds in is sound.** -/
theorem Inv.sound (hfit : P.Fits) (h : Inv P s) : Sound P s where
  acquire_defined size _ _ := by
    rcases acquire_spec hfit size s.mFreeBitMap with hacq | ⟨p, bm', hacq, -⟩ <;> rw [hacq] <;> rfl
  release_defined size ptr _ _ hmem := by
    obtain ⟨p, rfl, hle⟩ := h.released hmem
    obtain ⟨bm', hrel, -⟩ := release_spec hfit hle s.mFreeBitMap
    rw [hrel]
    rfl
  separate := h.separate_addresses
  bits _ hk := h.bit_iff hk
  size := h.size_eq
  empty := empty_iff_size _
  released hlive := by
    apply eq_initial
    rw [h.taken, hlive, occupied_nil]

/-- **Every sequence of calls is sound if the template arguments fit.** -/
theorem sound_of_fits (hfit : P.Fits) (h : (system P).Reachable s) : Sound P s := by
  refine Inv.sound hfit (h.invariant ?_ ?_)
  · rintro _ rfl
    exact inv_initial P
  · exact fun _ _ _ hI _ hs => hI.next hfit hs

/-! ### Template arguments that do not fit

The other direction of the equivalence needs a run that goes wrong for all such arguments.  Two
calls are enough: the first takes all slices before the first slot that is too large, in one
block, and the second asks for one slice more, which is that one. -/

/-- The request for `n` slices. -/
def Params.bytesFor (P : Params) (n : ℕ) : ℕ := (n - 1) * P.sliceSize + 1

theorem slices_bytesFor {n : ℕ} (hn : 1 ≤ n) (hlt : n * P.sliceSize < 2 ^ 64) :
    P.slices (P.bytesFor n) = n := by
  have hsum : (n - 1) * P.sliceSize + 1 + P.sliceSize - 1 = n * P.sliceSize := by
    obtain ⟨m, rfl⟩ := Nat.exists_eq_add_of_le' hn
    rw [Nat.add_sub_cancel, Nat.add_mul]
    omega
  rw [Params.slices, Params.bytesFor, hsum, Nat.mod_eq_of_lt hlt,
    Nat.mul_div_cancel _ P.size_pos]

theorem bytesFor_lt {n : ℕ} (hn : 1 ≤ n) (hlt : n * P.sliceSize < 2 ^ 64) :
    1 ≤ P.bytesFor n ∧ P.bytesFor n < 2 ^ 64 := by
  have hpos := P.size_pos
  have hsum : (n - 1) * P.sliceSize + P.sliceSize = n * P.sliceSize := by
    obtain ⟨m, rfl⟩ := Nat.exists_eq_add_of_le' hn
    rw [Nat.add_sub_cancel, Nat.add_mul, Nat.one_mul]
  rw [Params.bytesFor]
  omega

/-- The first call takes `n` slices from the start. -/
theorem acquire_initial {n : ℕ} (hn : 1 ≤ n) (hlt : n * P.sliceSize < 2 ^ 64)
    (hle : n ≤ P.fixedSliceCnt) (hint : n < 2 ^ 31) :
    ∃ bm, P.acquire (P.bytesFor n) P.initial = some (some P.sliceSize, bm) ∧
      Bitmap.Writes true (Set.Ico 0 n) P.initial bm := by
  have hslices := slices_bytesFor hn hlt
  have hfound : P.found (P.bytesFor n) P.initial = some (0 + 1) := by
    rw [Params.found, hslices]
    split
    · rw [Bitmap.find_eq P.cnt_dvd P.initial P.cnt_pos
        (fun k hk => absurd hk (Nat.not_lt_zero k)) (bit_initial P 0)]
    · exact Bitmap.findSlices_free P.initial hint hle (bit_initial P)
  obtain ⟨bm, hop, hw⟩ := Bitmap.bitmapOP_spec P.cnt_dvd .set P.initial
    (show 0 + n ≤ P.fixedSliceCnt by omega) (.of_le (by omega))
  rw [Nat.zero_add] at hw
  refine ⟨bm, ?_, hw⟩
  have hptr : P.sliceSize * (0 + 1) % 2 ^ 64 = P.sliceSize := by
    rw [Nat.zero_add, Nat.mul_one]
    exact Nat.mod_eq_of_lt P.size_lt
  rw [acquire_found hfound (by omega), hslices, hop, hptr]
  rfl

theorem acquire_first {n : ℕ} (hn : 1 ≤ n) (hlt : n * P.sliceSize < 2 ^ 64)
    (hle : n ≤ P.fixedSliceCnt) (hint : n < 2 ^ 31) :
    ∃ bm, next P (.acquire (P.bytesFor n)) { mFreeBitMap := P.initial, live := [] }
        = some { mFreeBitMap := bm, live := [⟨P.sliceSize, n⟩] } ∧
      Bitmap.Writes true (Set.Ico 0 n) P.initial bm := by
  obtain ⟨bm, hacquire, hw⟩ := acquire_initial hn hlt hle hint
  refine ⟨bm, ?_, hw⟩
  rw [next, if_pos (bytesFor_lt hn hlt), hacquire, slices_bytesFor hn hlt]
  rfl

theorem slices_one (P : Params) : P.slices 1 = 1 := by
  rw [Params.slices, Nat.add_sub_cancel_left, Nat.mod_eq_of_lt P.size_lt, Nat.div_self P.size_pos]

/-- And then a search for one slice finds the next. -/
theorem found_second {n : ℕ} {bm : Bitmap P.fixedSliceCnt} (hlt : n < P.fixedSliceCnt)
    (hw : Bitmap.Writes true (Set.Ico 0 n) P.initial bm) : P.found 1 bm = some (n + 1) := by
  rw [Params.found, slices_one, if_pos rfl]
  congr 1
  refine Bitmap.find_eq P.cnt_dvd bm hlt (fun k hk => ?_) ?_
  · exact hw.inside k ⟨Nat.zero_le k, hk⟩
  · rw [hw.outside n fun h => lt_irrefl n h.2, bit_initial]

/-- **Two calls that go wrong**: one takes all slices before the first slot that
does not fit, the other one asks for that slot. -/
theorem unsound_run {n : ℕ} (hn : 1 ≤ n) (hlt : n * P.sliceSize < 2 ^ 64)
    (hle : n < P.fixedSliceCnt) (hint : n < 2 ^ 31)
    (hbad : n + 1 = 2 ^ 31 ∨ 2 ^ 64 ≤ (n + 1) * P.sliceSize) :
    ∃ s, (system P).Reachable s ∧ ¬ Sound P s := by
  obtain ⟨bm, hfirst, hw⟩ := acquire_first hn hlt hle.le hint
  have hreach : (system P).Reachable { mFreeBitMap := bm, live := [⟨P.sliceSize, n⟩] } :=
    .step (.init rfl) trivial hfirst
  have hfound := found_second hle hw
  rcases eq_or_ne (n + 1) (2 ^ 31) with hmax | hmax
  · -- the slot does not fit an `int`
    refine ⟨_, hreach, fun hsound => ?_⟩
    have hdef := hsound.acquire_defined 1 le_rfl (by decide)
    rw [acquire_overflow (hmax ▸ hfound)] at hdef
    cases hdef
  · -- the pointer wraps around, and its block is not where its bit is
    have hwrap := hbad.resolve_left hmax
    obtain ⟨bm', hop, hw'⟩ := Bitmap.bitmapOP_spec P.cnt_dvd .set bm
      (show n + 1 ≤ P.fixedSliceCnt by omega) (.of_le (by omega))
    have hsecond : next P (.acquire 1) { mFreeBitMap := bm, live := [⟨P.sliceSize, n⟩] }
        = some { mFreeBitMap := bm',
                 live := [⟨P.sliceSize * (n + 1) % 2 ^ 64, 1⟩, ⟨P.sliceSize, n⟩] } := by
      rw [next, if_pos (by decide), acquire_found hfound (by omega), slices_one, hop]
      rfl
    refine ⟨_, hreach.step trivial hsecond, fun hsound => ?_⟩
    obtain ⟨b, hb, hmem⟩ := (hsound.bits n hle).mp (hw'.inside n ⟨le_rfl, Nat.lt_succ_self n⟩)
    rw [Block.addresses, Finset.mem_Ico] at hmem
    have hprod : P.sliceSize * (n + 1) = n * P.sliceSize + P.sliceSize := by ring
    have hsize := P.size_lt
    rw [Nat.add_mul, Nat.one_mul] at hwrap
    rcases List.mem_cons.mp hb with rfl | hb
    · dsimp only at hmem
      rw [hprod] at hmem
      omega
    · rw [List.mem_singleton.mp hb] at hmem
      dsimp only at hmem
      rw [hprod] at hmem
      omega

/-- The last slot before the first that goes wrong. -/
theorem exists_bad (hfit : ¬ P.Fits) : ∃ n, 1 ≤ n ∧ n * P.sliceSize < 2 ^ 64 ∧
    n < P.fixedSliceCnt ∧ n < 2 ^ 31 ∧ (n + 1 = 2 ^ 31 ∨ 2 ^ 64 ≤ (n + 1) * P.sliceSize) := by
  -- the number of the first slot that does not fit
  have hex : ∃ m, m = 2 ^ 31 ∨ 2 ^ 64 ≤ m * P.sliceSize := ⟨2 ^ 31, .inl rfl⟩
  have hle : Nat.find hex ≤ P.fixedSliceCnt := by
    rcases Nat.lt_or_ge P.fixedSliceCnt (2 ^ 31) with h31 | h31
    · exact Nat.find_le (.inr (Nat.not_lt.mp fun h => hfit ⟨h31, h⟩))
    · exact (Nat.find_le (.inl rfl)).trans h31
  have h31 : Nat.find hex ≤ 2 ^ 31 := Nat.find_le (.inl rfl)
  have hbad := Nat.find_spec hex
  have hmin : ∀ m < Nat.find hex, ¬ (m = 2 ^ 31 ∨ 2 ^ 64 ≤ m * P.sliceSize) :=
    fun m => Nat.find_min hex
  have htwo : 2 ≤ Nat.find hex := by
    by_contra hlt
    have hsize := P.size_lt
    rcases Nat.lt_or_ge (Nat.find hex) 1 with h0 | h1
    · rw [Nat.lt_one_iff.mp h0] at hbad
      omega
    · rw [show Nat.find hex = 1 by omega] at hbad
      omega
  obtain ⟨n, hn⟩ : ∃ n, Nat.find hex = n + 1 := ⟨Nat.find hex - 1, by omega⟩
  rw [hn] at hle h31 hbad htwo hmin
  refine ⟨n, by omega, ?_, by omega, by omega, hbad⟩
  exact Nat.not_le.mp fun h => hmin n (Nat.lt_succ_self n) (.inr h)

/-- **The allocator is sound exactly for template arguments that fit**: fewer than
`2^31` slices, because `slot` in `acquire` is an `int`, in a storage that fits the
address space. -/
theorem sound_iff (P : Params) : (∀ s, (system P).Reachable s → Sound P s) ↔
    P.fixedSliceCnt < 2 ^ 31 ∧ P.fixedSliceCnt * P.sliceSize < 2 ^ 64 := by
  constructor
  · intro hsound
    by_contra hfit
    obtain ⟨n, hn, hlt, hle, hint, hbad⟩ := exists_bad hfit
    obtain ⟨s, hs, hunsound⟩ := unsound_run hn hlt hle hint hbad
    exact hunsound (hsound s hs)
  · intro hfit s hs
    exact sound_of_fits hfit hs

/-- `MemoryRingBuffer<2^31, 64>`. -/
def largeParams : Params where
  fixedSliceCnt := 2 ^ 31
  sliceSize := 64
  cnt_pos := by decide
  cnt_dvd := by decide
  cnt_lt := by decide
  size_pos := by decide
  size_lt := by decide

/-- There, one call takes all slices but the last, and the call that asks for the
last is undefined. -/
theorem large_unsound :
    (∃ s, next largeParams (.acquire ((2 ^ 31 - 2) * 64 + 1))
        { mFreeBitMap := largeParams.initial, live := [] } = some s ∧
      largeParams.acquire 1 s.mFreeBitMap = none) ∧
    ¬ ∀ s, (system largeParams).Reachable s → Sound largeParams s := by
  constructor
  · obtain ⟨bm, hfirst, hw⟩ := acquire_first (P := largeParams) (n := 2 ^ 31 - 1) (by decide)
      (by decide) (by decide) (by decide)
    exact ⟨_, hfirst, acquire_overflow (found_second (by decide) hw)⟩
  · intro hsound
    obtain ⟨s, hs, hunsound⟩ := unsound_run (P := largeParams) (n := 2 ^ 31 - 1) (by decide)
      (by decide) (by decide) (by decide) (.inl (by decide))
    exact hunsound (hsound s hs)

end LinuxProgram.MemoryAllocatorBitmap
