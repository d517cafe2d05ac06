import LinuxProgram.MemoryAllocatorBitmap.MemoryRingBuffer

/-!
# What the operations do to the bits

Everything is said about `Bitmap.bit`, so that words and offsets within them do not
occur further up.

* `Writes v A bm bm'` — the bits in `A` become `v` and the others stay.  A loop of
  writes writes the union (`Writes.foldlM`).
* `bitmapOP_spec` — `bitmapOP` writes the bits from `NR` to `NR + bits`, whichever
  of its three loops they fall to.
* `find_spec`, `findLoop_spec` — what the two searches return is free, and it is the
  first free bit in the case of `find`.
-/

namespace LinuxProgram.MemoryAllocatorBitmap

/-! ### Words

The words are used by `set_bit`, `clear_bit` and stores of whole words, and searched by the
instructions behind `ffsll` and `tzcnt`.  What is needed of them is which bit they change, and
that they find the lowest bit of the kind they look for. -/

theorem ffsll_eq_zero {w : BitVec 64} : ffsll w = 0 ↔ w = 0#64 := by
  rw [ffsll]
  split <;> simp_all

/-- `ffsll` finds the lowest bit that is set. -/
theorem ffsll_spec {w : BitVec 64} {n : ℕ} (h : ffsll w = n + 1) :
    n < 64 ∧ w.getLsbD n = true ∧ ∀ m < n, w.getLsbD m = false := by
  rw [ffsll] at h
  split at h
  · cases h
  · rename_i hw
    obtain rfl : w.ctz.toNat = n := by omega
    exact ⟨BitVec.ctz_lt_iff_ne_zero.mpr hw, BitVec.getLsbD_true_ctz_of_ne_zero hw,
      fun m hm => BitVec.getLsbD_false_of_lt_ctz hm⟩

theorem tzcnt_le (w : BitVec 64) : tzcnt w ≤ 64 := by
  rw [tzcnt, BitVec.ctz_eq_reverse_clz]
  exact BitVec.le_def.mp BitVec.clz_le

/-- `ffzll` finds the lowest bit that is not set. -/
theorem ffzll_spec {w : BitVec 64} {n : ℕ} (h : ffzll w = n + 1) :
    n < 64 ∧ w.getLsbD n = false ∧ ∀ m < n, w.getLsbD m = true := by
  obtain ⟨hn, hset, hlow⟩ := ffsll_spec h
  refine ⟨hn, ?_, fun m hm => ?_⟩
  · simpa [hn] using hset
  · simpa [hm.trans hn] using hlow m hm

/-- `ffzll` finds nothing in a word whose bits are all set. -/
theorem ffzll_eq_zero {w : BitVec 64} :
    ffzll w = 0 ↔ ∀ b < 64, w.getLsbD b = true := by
  rw [ffzll, ffsll_eq_zero]
  constructor
  · intro h b hb
    have hbit : (~~~w).getLsbD b = false := by simp [h]
    simpa [hb] using hbit
  · intro h
    apply BitVec.eq_of_getLsbD_eq
    intro b hb
    simpa [hb] using h b hb

/-- What an operation leaves in a bit. -/
def BitOp.value : BitOp → Bool
  | .set => true
  | .clear => false

theorem BitOp.getLsbD_onBit (op : BitOp) (nr : ℕ) (w : BitVec 64) {b : ℕ} (hb : b < 64) :
    (op.onBit nr w).getLsbD b = if b = nr then op.value else w.getLsbD b := by
  cases op with
  | set =>
      rcases eq_or_ne b nr with rfl | hne
      · simp [BitOp.onBit, setBit, BitOp.value, hb]
      · have : ¬ b - nr = 0 ∨ b < nr := by omega
        simp [BitOp.onBit, setBit, hb, hne]
        omega
  | clear =>
      rcases eq_or_ne b nr with rfl | hne
      · simp [BitOp.onBit, clearBit, BitOp.value, hb]
      · simp [BitOp.onBit, clearBit, hb, hne]
        omega

theorem BitOp.getLsbD_word (op : BitOp) {b : ℕ} (hb : b < 64) :
    op.word.getLsbD b = op.value := by
  cases op with
  | set =>
      have hones : BitOp.set.word = BitVec.allOnes 64 := by decide
      rw [hones, BitVec.getLsbD_allOnes, decide_eq_true hb, BitOp.value]
  | clear => simp [BitOp.word, BitOp.value]

namespace Bitmap

variable {cnt : ℕ} {bm bm' : Bitmap cnt} {v : Bool} {A B : Set ℕ}

/-! ### Writes

A range is written in several pieces.  Composing them is the union of the sets of bits that they
write, and a loop writes the union over its turns; the one thing to show for each piece is that it
stays within the bitmap. -/

/-- **The bits in `A` become `v`** and the others stay. -/
structure Writes (v : Bool) (A : Set ℕ) (bm bm' : Bitmap cnt) : Prop where
  inside : ∀ k ∈ A, bm'.bit k = v
  outside : ∀ k ∉ A, bm'.bit k = bm.bit k

theorem Writes.refl (v : Bool) (bm : Bitmap cnt) : Writes v ∅ bm bm where
  inside _ hk := hk.elim
  outside _ _ := rfl

/-- One write after the other. -/
theorem Writes.trans {bm'' : Bitmap cnt} (h : Writes v A bm bm') (h' : Writes v B bm' bm'') :
    Writes v (A ∪ B) bm bm'' where
  inside k hk := by
    by_cases hB : k ∈ B
    · exact h'.inside k hB
    · rw [h'.outside k hB]
      exact h.inside k (hk.resolve_right hB)
  outside k hk := by
    rw [h'.outside k fun hB => hk (.inr hB), h.outside k fun hA => hk (.inl hA)]

/-- **A loop of writes**, which never fails if none of its turns does. -/
theorem Writes.foldlM {ι : Type} {f : Bitmap cnt → ι → Option (Bitmap cnt)} {A : ι → Set ℕ}
    (l : List ι) (h : ∀ i ∈ l, ∀ bm, ∃ bm', f bm i = some bm' ∧ Writes v (A i) bm bm')
    (bm : Bitmap cnt) :
    ∃ bm', l.foldlM f bm = some bm' ∧ Writes v {k | ∃ i ∈ l, k ∈ A i} bm bm' := by
  induction l generalizing bm with
  | nil => exact ⟨bm, rfl, by simpa using Writes.refl v bm⟩
  | cons i l ih =>
      obtain ⟨bm₁, h₁, hw₁⟩ := h i (.head l) bm
      obtain ⟨bm₂, h₂, hw₂⟩ := ih (fun j hj => h j (.tail i hj)) bm₁
      refine ⟨bm₂, by simp [h₁, h₂], ?_⟩
      have hunion : A i ∪ {k | ∃ j ∈ l, k ∈ A j} = {k | ∃ j ∈ i :: l, k ∈ A j} := by
        ext k
        simp
      exact hunion ▸ hw₁.trans hw₂

/-- A write to the word at `p`, which is one of the bitmap. -/
theorem update_spec {p : ℕ} (hp : p < cnt / 64) (f : BitVec 64 → BitVec 64) (bm : Bitmap cnt) :
    ∃ bm', bm.update p f = some bm' ∧ ∀ k, bm'.bit k
      = if k / 64 = p then (f (bm.word p)).getLsbD (k % 64) else bm.bit k := by
  refine ⟨bm.set p (f bm[p]), by simp [update, hp], fun k => ?_⟩
  rw [bit, bit, word, word, word, Vector.getElem?_set]
  rcases eq_or_ne (k / 64) p with rfl | hne
  · simp [hp]
  · simp [hne, hne.symm]

/-- `set_bit` or `clear_bit` on the word at `p`. -/
theorem update_onBit {p b : ℕ} (hp : p < cnt / 64) (hb : b < 64) (op : BitOp) (bm : Bitmap cnt) :
    ∃ bm', bm.update p (op.onBit b) = some bm' ∧ Writes op.value {64 * p + b} bm bm' := by
  obtain ⟨bm', h, hbit⟩ := update_spec hp (op.onBit b) bm
  refine ⟨bm', h, fun k hk => ?_, fun k hk => ?_⟩
  · rw [Set.mem_singleton_iff.mp hk, hbit, if_pos (by omega),
      op.getLsbD_onBit b _ (Nat.mod_lt _ (by decide)), if_pos (by omega)]
  · rw [Set.mem_singleton_iff] at hk
    rw [hbit]
    split
    · rename_i hkp
      rw [op.getLsbD_onBit b _ (Nat.mod_lt _ (by decide)), if_neg (by omega), bit, hkp]
    · rfl

/-- A store to the word at `p`. -/
theorem update_word {p : ℕ} (hp : p < cnt / 64) (op : BitOp) (bm : Bitmap cnt) :
    ∃ bm', bm.update p (fun _ => op.word) = some bm' ∧
      Writes op.value (Set.Ico (64 * p) (64 * (p + 1))) bm bm' := by
  obtain ⟨bm', h, hbit⟩ := update_spec hp (fun _ => op.word) bm
  refine ⟨bm', h, fun k hk => ?_, fun k hk => ?_⟩
  · rw [Set.mem_Ico] at hk
    rw [hbit, if_pos (by omega), op.getLsbD_word (Nat.mod_lt _ (by decide))]
  · rw [Set.mem_Ico] at hk
    rw [hbit, if_neg (by omega)]

/-! ### bitmapOP

It writes the end of the first word bit by bit, the words in between as a whole, and the start of
the last word bit by bit again.  The loops count in `int`, and so the range, which is inside the
bitmap, has to be one whose words an `int` can count. -/

/-- Conversion to `int` of what fits. -/
theorem toInt_eq {x : ℤ} (h0 : 0 ≤ x) (h : x < 2 ^ 31) : toInt x = x := by
  rw [toInt, Int.bmod_eq_emod_of_lt]
  · exact Int.emod_eq_of_lt h0 (by omega)
  · rw [Int.emod_eq_of_lt h0 (by omega)]
    omega

theorem and_63 (i : ℕ) : i &&& 0x3F = i % 64 := Nat.and_two_pow_sub_one_eq_mod i 6

/-- The loop over the bits of the first word, from the start of the range on. -/
theorem left_spec (op : BitOp) (bm : Bitmap cnt) (nr : ℕ) {m : ℕ} (hm : m ≤ (nr / 64 + 1) * 64)
    (hcnt : nr < m → nr / 64 < cnt / 64) :
    ∃ bm', (List.range' nr (m - nr)).foldlM
        (fun bm i => update bm (nr / 64 : ℕ) (op.onBit (i &&& 0x3F))) bm = some bm' ∧
      Writes op.value (Set.Ico nr m) bm bm' := by
  obtain ⟨bm', h, hw⟩ := Writes.foldlM (v := op.value) (A := fun i => {i})
    (f := fun bm i => update bm (nr / 64 : ℕ) (op.onBit (i &&& 0x3F)))
    (List.range' nr (m - nr)) (fun i hi bm => by
      rw [List.mem_range'_1] at hi
      have hbit : 64 * (nr / 64) + i % 64 = i := by omega
      have := update_onBit (p := nr / 64) (b := i % 64) (hcnt (by omega)) (by omega) op bm
      rwa [hbit, ← and_63] at this) bm
  refine ⟨bm', h, ?_⟩
  have hrange : {k | ∃ i ∈ List.range' nr (m - nr), k ∈ ({i} : Set ℕ)} = Set.Ico nr m := by
    ext k
    simp only [List.mem_range'_1, Set.mem_singleton_iff, exists_eq_right', Set.mem_ofPred_eq,
      Set.mem_Ico]
    omega
  rwa [hrange] at hw

/-- The loop over the words in between, which are written as a whole. -/
theorem middle_spec (op : BitOp) (bm : Bitmap cnt) {p n : ℕ} (hcnt : p + n ≤ cnt / 64) :
    ∃ bm', (List.range n).foldlM
        (fun bm i => update bm ((p : ℤ) + (i : ℕ)) fun _ => op.word) bm = some bm' ∧
      Writes op.value (Set.Ico (64 * p) (64 * (p + n))) bm bm' := by
  obtain ⟨bm', h, hw⟩ := Writes.foldlM (v := op.value)
    (A := fun i => Set.Ico (64 * (p + i)) (64 * (p + i + 1)))
    (f := fun bm i => update bm ((p : ℤ) + (i : ℕ)) fun _ => op.word)
    (List.range n) (fun i hi bm => by
      rw [List.mem_range] at hi
      exact update_word (p := p + i) (by omega) op bm) bm
  refine ⟨bm', h, ?_⟩
  have hrange : {k | ∃ i ∈ List.range n, k ∈ Set.Ico (64 * (p + i)) (64 * (p + i + 1))}
      = Set.Ico (64 * p) (64 * (p + n)) := by
    ext k
    simp only [List.mem_range, Set.mem_ofPred_eq, Set.mem_Ico]
    constructor
    · rintro ⟨i, hi, hk⟩
      omega
    · intro hk
      exact ⟨k / 64 - p, by omega⟩
  rwa [hrange] at hw

/-- The loop over the bits of the last word, up to the end of the range. -/
theorem right_spec (op : BitOp) (bm : Bitmap cnt) {p n : ℕ} (hn : n ≤ 64)
    (hcnt : 0 < n → p < cnt / 64) :
    ∃ bm', (List.range n).foldlM (fun bm bit => update bm (p : ℕ) (op.onBit bit)) bm = some bm' ∧
      Writes op.value (Set.Ico (64 * p) (64 * p + n)) bm bm' := by
  obtain ⟨bm', h, hw⟩ := Writes.foldlM (v := op.value) (A := fun bit => {64 * p + bit})
    (f := fun bm bit => update bm (p : ℕ) (op.onBit bit))
    (List.range n) (fun bit hbit bm => by
      rw [List.mem_range] at hbit
      exact update_onBit (hcnt (by omega)) (by omega) op bm) bm
  refine ⟨bm', h, ?_⟩
  have hrange : {k | ∃ bit ∈ List.range n, k ∈ ({64 * p + bit} : Set ℕ)}
      = Set.Ico (64 * p) (64 * p + n) := by
    ext k
    simp only [List.mem_range, Set.mem_singleton_iff, Set.mem_ofPred_eq, Set.mem_Ico]
    constructor
    · rintro ⟨bit, hbit, rfl⟩
      omega
    · intro hk
      exact ⟨k - 64 * p, by omega⟩
  rwa [hrange] at hw

/-- The sum of two `int`s that is one. -/
theorem addInt_eq {x y : ℤ} (h0 : 0 ≤ x + y) (h : x + y < 2 ^ 31) : addInt x y = some (x + y) :=
  if_pos ⟨by omega, h⟩

/-- **The words that an `int` counts**: the range ends in the word it starts in, or
its end is in one of them. -/
def Addressed (nr bits : ℕ) : Prop :=
  nr / 64 < 2 ^ 31 ∧ (nr + bits ≤ (nr / 64 + 1) * 64 ∨ (nr + bits) / 64 < 2 ^ 31)

/-- A bitmap of at most `2^31` bits has no other words. -/
theorem Addressed.of_le {nr bits : ℕ} (h : nr + bits ≤ 2 ^ 31) : Addressed nr bits :=
  ⟨by omega, .inr (by omega)⟩

/-- **`bitmapOP` writes the bits from `nr` to `nr + bits`** and no others, as long as an `int` can
count the words of the range.  The three loops each write a part of it. -/
theorem bitmapOP_spec (hdvd : 64 ∣ cnt) (op : BitOp) (bm : Bitmap cnt) {nr bits : ℕ}
    (h : nr + bits ≤ cnt) (hint : Addressed nr bits) :
    ∃ bm', bitmapOP op bm nr bits = some bm' ∧
      Writes op.value (Set.Ico nr (nr + bits)) bm bm' := by
  obtain ⟨hnr, hspan⟩ := hint
  have hend : (nr + bits) % 2 ^ 64 = nr + bits := Nat.mod_eq_of_lt (by omega)
  have hleft : (nr / 64 + 1) * 64 % 2 ^ 64 = (nr / 64 + 1) * 64 := Nat.mod_eq_of_lt (by omega)
  have hpos : toInt (nr / 64 : ℕ) = (nr / 64 : ℕ) := toInt_eq (by omega) (by omega)
  obtain ⟨bm₁, h₁, hw₁⟩ := left_spec op bm nr
    (m := min (nr + bits) ((nr / 64 + 1) * 64)) (min_le_right _ _) (by omega)
  rw [bitmapOP, hend, hleft, hpos]
  simp only [h₁, Option.bind_eq_bind, Option.bind_some]
  split
  · rename_i hle
    rw [min_eq_left hle] at hw₁
    exact ⟨bm₁, rfl, hw₁⟩
  · rename_i hgt
    have hlast := hspan.resolve_left hgt
    rw [min_eq_right (by omega)] at hw₁
    have hnext : addInt (nr / 64 : ℕ) 1 = some (((nr / 64 : ℕ) : ℤ) + 1) :=
      addInt_eq (by omega) (by omega)
    have hbytes : toInt (((nr + bits) / 64 : ℕ) - ((nr / 64 : ℕ) + 1))
        = ((nr + bits) / 64 - (nr / 64 + 1) : ℕ) := by
      rw [toInt_eq (by omega) (by omega)]
      omega
    have hword : ((nr / 64 : ℕ) : ℤ) + 1 + ((nr + bits) / 64 - (nr / 64 + 1) : ℕ)
        = ((nr + bits) / 64 : ℕ) := by omega
    have hsum : addInt ((nr / 64 : ℕ) + 1) ((nr + bits) / 64 - (nr / 64 + 1) : ℕ)
        = some (((nr + bits) / 64 : ℕ) : ℤ) := by
      rw [addInt_eq (by omega) (by omega), hword]
    obtain ⟨bm₂, h₂, hw₂⟩ := middle_spec op bm₁ (p := nr / 64 + 1)
      (n := (nr + bits) / 64 - (nr / 64 + 1)) (by omega)
    obtain ⟨bm₃, h₃, hw₃⟩ := right_spec op bm₂ (p := (nr + bits) / 64)
      (n := (nr + bits) &&& 0x3F) (by rw [and_63]; omega) (by rw [and_63]; omega)
    refine ⟨bm₃, ?_, ?_⟩
    · have hpos' : ((nr / 64 : ℕ) : ℤ) + 1 = (nr / 64 + 1 : ℕ) := by omega
      rw [hnext, Option.bind_some, hbytes, hsum, Option.bind_some, hpos', Int.toNat_natCast, h₂]
      exact h₃
    · have hunion : Set.Ico nr ((nr / 64 + 1) * 64)
          ∪ Set.Ico (64 * (nr / 64 + 1)) (64 * (nr / 64 + 1 + ((nr + bits) / 64 - (nr / 64 + 1))))
          ∪ Set.Ico (64 * ((nr + bits) / 64)) (64 * ((nr + bits) / 64) + ((nr + bits) &&& 0x3F))
          = Set.Ico nr (nr + bits) := by
        ext k
        simp only [and_63, Set.mem_union, Set.mem_Ico]
        omega
      exact hunion ▸ (hw₁.trans hw₂).trans hw₃

/-! ### The searches

`find` looks for a free bit word by word, and `findSlices` for a number of free bits in a row, bit
by bit.  The latter loads a word only when it comes to the first bit of one, which is what
`Loaded` keeps track of, and has a shortcut for a run at the start of the bitmap. -/

/-- What a search returns: 0, or one plus the first of `n` free bits. -/
def FreeAt (bm : Bitmap cnt) (n slot : ℕ) : Prop :=
  slot = 0 ∨ ∃ p < cnt, slot = p + 1 ∧ p + n ≤ cnt ∧
    ∀ k, p ≤ k → k < p + n → bm.bit k = false

theorem bit_word (bm : Bitmap cnt) {i b : ℕ} (hb : b < 64) :
    bm.bit (i * 64 + b) = (bm.word i).getLsbD b := by
  rw [bit, show (i * 64 + b) / 64 = i by omega, show (i * 64 + b) % 64 = b by omega]

/-- **`find` returns the first free bit**, or 0 if there is none. -/
theorem find_spec (hdvd : 64 ∣ cnt) (bm : Bitmap cnt) :
    (bm.find = 0 ∧ ∀ k < cnt, bm.bit k = true) ∨
      ∃ p < cnt, bm.find = p + 1 ∧ bm.bit p = false ∧ ∀ k < p, bm.bit k = true := by
  rw [find]
  cases hsome : (List.range (cnt / 64)).findSome? fun i =>
      let nr := ffzll (bm.word i)
      if nr ≠ 0 then some (i * 64 + nr) else none with
  | none =>
      refine .inl ⟨rfl, fun k hk => ?_⟩
      have hword := List.findSome?_eq_none_iff.mp hsome (k / 64) (by rw [List.mem_range]; omega)
      have hnr : ffzll (bm.word (k / 64)) = 0 := by simpa using hword
      exact ffzll_eq_zero.mp hnr (k % 64) (by omega)
  | some slot =>
      right
      obtain ⟨l₁, i, l₂, hl, hi, hnone⟩ := List.findSome?_eq_some_iff.mp hsome
      rw [List.range_eq_range', List.range'_eq_append_iff] at hl
      obtain ⟨n, hn, rfl, htail⟩ := hl
      obtain ⟨rfl, hlt, -⟩ := List.range'_eq_cons_iff.mp htail.symm
      simp only [Nat.mul_one, Nat.zero_add] at hi
      obtain ⟨b, hb⟩ : ∃ b, ffzll (bm.word n) = b + 1 := by
        refine Nat.exists_eq_succ_of_ne_zero fun h0 => ?_
        simp [h0] at hi
      obtain ⟨hb64, hfree, hlow⟩ := ffzll_spec hb
      simp only [hb] at hi
      refine ⟨n * 64 + b, by omega, ?_, by rw [bit_word bm hb64, hfree], fun k hk => ?_⟩
      · have hslot : n * 64 + (b + 1) = slot := by simpa using hi
        exact hslot.symm
      · rcases Nat.lt_or_ge k (n * 64) with hkn | hkn
        · have hword := hnone (k / 64) (by rw [List.mem_range'_1]; omega)
          have hnr : ffzll (bm.word (k / 64)) = 0 := by simpa using hword
          exact ffzll_eq_zero.mp hnr (k % 64) (by omega)
        · obtain ⟨m, rfl⟩ := Nat.exists_eq_add_of_le hkn
          rw [bit_word bm (by omega)]
          exact hlow m (by omega)

/-- The test of the loop on the bit it is at. -/
theorem test_bit {w : BitVec 64} {b : ℕ} (hb : b < 64) :
    (1#64 <<< b) &&& w ≠ 0#64 ↔ w.getLsbD b = true := by
  rw [← BitVec.twoPow_eq, BitVec.twoPow_and]
  split
  · rename_i hset
    refine iff_of_true (fun h0 => ?_) hset
    have hbit : (BitVec.twoPow 64 b).getLsbD b = true := by simp [hb]
    rw [h0, BitVec.getLsbD_zero] at hbit
    cases hbit
  · rename_i hclear
    exact iff_of_false (fun h => h rfl) hclear

/-- The word the loop works on is that of the bit it is at.  At the first bit of a word it is still
to be loaded. -/
def Loaded (bm : Bitmap cnt) (bit : ℕ) (data : BitVec 64) : Prop :=
  bit % 64 ≠ 0 → data = bm.word (bit / 64)

/-- The word a turn works on. -/
theorem Loaded.load {bit : ℕ} {data : BitVec 64} (h : bm.Loaded bit data) :
    (if bit % 64 = 0 then bm.word (bit / 64) else data) = bm.word (bit / 64) := by
  split
  · rfl
  · exact h ‹_›

/-- It is there for the next turn. -/
theorem loaded_succ (bm : Bitmap cnt) (bit : ℕ) : bm.Loaded (bit + 1) (bm.word (bit / 64)) := by
  intro hmod
  rw [show (bit + 1) / 64 = bit / 64 by omega]

/-- **The loop of `findSlices`**, behind `currentRet` free bits. -/
theorem findLoop_spec (hcnt : cnt < 2 ^ 31) (bm : Bitmap cnt) {slices : ℕ} (left : ℕ) :
    ∀ {bit currentRet maxSoFar : ℕ} {data : BitVec 64}, bit + left = cnt → currentRet ≤ bit →
      currentRet ≤ maxSoFar → maxSoFar < slices → bm.Loaded bit data →
      (∀ k, bit - currentRet ≤ k → k < bit → bm.bit k = false) →
      ∃ slot, bm.findLoop slices left bit data currentRet maxSoFar = some slot ∧
        bm.FreeAt slices slot := by
  induction left with
  | zero =>
      intro bit currentRet maxSoFar data _ _ _ _ _ _
      exact ⟨0, rfl, .inl rfl⟩
  | succ left ih =>
      intro bit currentRet maxSoFar data hleft hbit hmax hslices hdata hfree
      have hdata' := bm.loaded_succ bit
      rw [findLoop]
      simp only [hdata.load]
      rw [if_neg (by omega)]
      split
      · refine ih (by omega) (Nat.zero_le _) (Nat.zero_le _) hslices hdata' fun k hk hk' => ?_
        omega
      · rename_i htest
        rw [test_bit (Nat.mod_lt _ (by decide)), Bool.not_eq_true] at htest
        have hrun : ∀ k, bit + 1 - (currentRet + 1) ≤ k → k < bit + 1 → bm.bit k = false := by
          intro k hk hk'
          rcases Nat.lt_succ_iff_lt_or_eq.mp hk' with h | rfl
          · exact hfree k (by omega) h
          · exact htest
        split
        · rename_i hfound
          -- the run is as long as was asked for
          refine ⟨bit + 1 - slices + 1, rfl, .inr ⟨bit + 1 - slices, by omega, rfl, by omega, ?_⟩⟩
          intro k hk hk'
          exact hrun k (by omega) (by omega)
        · exact ih (by omega) (by omega) (le_max_left _ _) (by omega) hdata' hrun

/-- The bits that `tzcnt` has counted. -/
theorem bit_of_lt_tzcnt {bm : Bitmap cnt} {k : ℕ} (h : k < tzcnt (bm.word 0)) :
    bm.bit k = false := by
  have hle := tzcnt_le (bm.word 0)
  rw [bit, Nat.div_eq_of_lt (by omega), Nat.mod_eq_of_lt (by omega)]
  exact BitVec.getLsbD_false_of_lt_ctz h

/-- **`findSlices` returns free bits**, whether it takes the shortcut for the start of the bitmap or
scans. -/
theorem findSlices_spec (hcnt : cnt < 2 ^ 31) (hpos : 64 ≤ cnt) (bm : Bitmap cnt) (slices : ℕ) :
    ∃ slot, bm.findSlices slices = some slot ∧ bm.FreeAt slices slot := by
  rw [findSlices]
  split
  · exact findLoop_spec hcnt bm cnt (by omega) le_rfl le_rfl (by omega) (fun h => absurd rfl h)
      fun k _ hk => absurd hk (Nat.not_lt_zero k)
  · rename_i htz
    have hle := tzcnt_le (bm.word 0)
    refine ⟨1, rfl, .inr ⟨0, by omega, rfl, by omega, fun k _ hk => ?_⟩⟩
    exact bit_of_lt_tzcnt (by omega)

/-- A run of free bits at the start is found at once. -/
theorem findLoop_free (bm : Bitmap cnt) {slices : ℕ} (hslices : slices < 2 ^ 31)
    (hfree : ∀ k < slices, bm.bit k = false) (left : ℕ) :
    ∀ {bit : ℕ} {data : BitVec 64}, bit < slices → slices ≤ bit + left → bm.Loaded bit data →
      bm.findLoop slices left bit data bit bit = some 1 := by
  induction left with
  | zero =>
      intro bit data hlt hle
      exact absurd hlt (Nat.not_lt.mpr hle)
  | succ left ih =>
      intro bit data hlt hle hdata
      have hclear : ¬ (1#64 <<< (bit % 64)) &&& bm.word (bit / 64) ≠ 0#64 := by
        rw [test_bit (Nat.mod_lt _ (by decide)), Bool.not_eq_true]
        exact hfree bit hlt
      rw [findLoop]
      simp only [hdata.load]
      rw [if_neg (by omega), if_neg hclear, max_eq_left (Nat.le_succ bit)]
      split
      · rename_i heq
        rw [← heq, Nat.sub_self]
      · exact ih (by omega) (by omega) (bm.loaded_succ bit)

/-- `findSlices` on a bitmap that is free. -/
theorem findSlices_free (bm : Bitmap cnt) {slices : ℕ} (hslices : slices < 2 ^ 31)
    (hle : slices ≤ cnt) (hfree : ∀ k, bm.bit k = false) : bm.findSlices slices = some 1 := by
  rw [findSlices]
  split
  · exact findLoop_free bm hslices (fun k _ => hfree k) cnt (by omega) (by omega)
      fun h => absurd rfl h
  · rfl

/-- `find` behind `p` bits that are set. -/
theorem find_eq (hdvd : 64 ∣ cnt) (bm : Bitmap cnt) {p : ℕ} (hp : p < cnt)
    (hset : ∀ k < p, bm.bit k = true) (hfree : bm.bit p = false) : bm.find = p + 1 := by
  rcases bm.find_spec hdvd with ⟨-, hall⟩ | ⟨q, -, hfind, hq, hlow⟩
  · rw [hall p hp] at hfree
    cases hfree
  · obtain rfl : q = p := by
      rcases Nat.lt_trichotomy q p with h | h | h
      · rw [hset q h] at hq
        cases hq
      · exact h
      · rw [hlow p h] at hfree
        cases hfree
    exact hfind

/-! ### Bitmaps by their bits -/

/-- A bitmap is its bits. -/
theorem ext_bit (hdvd : 64 ∣ cnt) (h : ∀ k < cnt, bm.bit k = bm'.bit k) : bm = bm' := by
  apply Vector.ext
  intro i hi
  have hword : bm.word i = bm'.word i := by
    apply BitVec.eq_of_getLsbD_eq
    intro b hb
    rw [← bm.bit_word hb, ← bm'.bit_word hb]
    exact h (i * 64 + b) (by omega)
  rw [word, word, Vector.getElem?_eq_getElem hi, Vector.getElem?_eq_getElem hi] at hword
  exact hword

/-! ### empty and size -/

/-- The bits that are set, which are the slices that are taken. -/
def taken (bm : Bitmap cnt) : Finset ℕ := (Finset.range cnt).filter fun k => bm.bit k = true

/-- **`empty`** — no bit is free. -/
theorem empty_iff (hdvd : 64 ∣ cnt) (bm : Bitmap cnt) :
    bm.empty = true ↔ ∀ k < cnt, bm.bit k = true := by
  simp only [empty, List.all_eq_true, decide_eq_true_eq, ffzll_eq_zero]
  constructor
  · intro h k hk
    have hi : k / 64 < cnt / 64 := by omega
    have := h bm[k / 64] (by simp) (k % 64) (Nat.mod_lt _ (by decide))
    simpa [bit, word, hi] using this
  · intro h w hw b hb
    obtain ⟨i, hi, rfl⟩ := List.mem_iff_getElem.mp hw
    rw [Vector.length_toList] at hi
    have hbit := h (i * 64 + b) (by omega)
    rw [bit_word bm hb, word] at hbit
    simpa [hi] using hbit

/-- The number of bits of a word. -/
theorem bitSetCount_eq (w : BitVec 64) :
    bitSetCount w = ∑ b ∈ Finset.range 64, (w.getLsbD b).toNat := by
  have hrec : ∀ n, w.cpopNatRec n 0 = ∑ b ∈ Finset.range n, (w.getLsbD b).toNat := by
    intro n
    induction n with
    | zero => rfl
    | succ n ih => rw [BitVec.cpopNatRec_succ, BitVec.cpopNatRec_eq, ih, Finset.sum_range_succ,
        Nat.zero_add]
  rw [bitSetCount, BitVec.toNat_cpop, hrec]

/-- A sum over the bits, word by word. -/
theorem sum_words (f : ℕ → ℕ) (n : ℕ) :
    ∑ i ∈ Finset.range n, ∑ b ∈ Finset.range 64, f (i * 64 + b)
      = ∑ k ∈ Finset.range (n * 64), f k := by
  induction n with
  | zero => simp
  | succ n ih => rw [Finset.sum_range_succ, ih, Nat.add_mul, Nat.one_mul, Finset.sum_range_add f]

/-- A sum over the words, by their numbers. -/
theorem sum_map_toList (f : BitVec 64 → ℕ) (bm : Bitmap cnt) :
    (bm.toList.map f).sum = ∑ i ∈ Finset.range (cnt / 64), f (bm.word i) := by
  have hlist : ∀ l : List (BitVec 64),
      (l.map f).sum = ∑ i ∈ Finset.range l.length, f (l[i]?.getD 0#64) := by
    intro l
    induction l with
    | nil => rfl
    | cons w l ih =>
        rw [List.map_cons, List.sum_cons, ih, List.length_cons, Finset.sum_range_succ',
          Nat.add_comm]
        rfl
  rw [hlist, Vector.length_toList]
  simp [word]

/-- **`size`** — the number of bits that are free. -/
theorem size_add_card (hdvd : 64 ∣ cnt) (bm : Bitmap cnt) : bm.size + bm.taken.card = cnt := by
  have hcnt : cnt / 64 * 64 = cnt := Nat.div_mul_cancel hdvd
  have hword : ∀ i, bitSetCount (~~~bm.word i)
      = ∑ b ∈ Finset.range 64, if ¬ bm.bit (i * 64 + b) = true then 1 else 0 := by
    intro i
    rw [bitSetCount_eq]
    refine Finset.sum_congr rfl fun b hb => ?_
    rw [Finset.mem_range] at hb
    rw [bit_word bm hb, BitVec.getLsbD_not, decide_eq_true hb]
    cases (bm.word i).getLsbD b <;> rfl
  have hfree : bm.size = ((Finset.range cnt).filter fun k => ¬ bm.bit k = true).card := by
    rw [size, sum_map_toList, Finset.sum_congr rfl fun i _ => hword i,
      sum_words (fun k => if ¬ bm.bit k = true then 1 else 0), hcnt, Finset.card_filter]
  rw [hfree, taken, Nat.add_comm, Finset.card_filter_add_card_filter_not, Finset.card_range]

end Bitmap

end LinuxProgram.MemoryAllocatorBitmap
