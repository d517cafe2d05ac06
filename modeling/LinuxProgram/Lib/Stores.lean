import Mathlib

/-!
# Stores into a memory

The bytes of a memory are numbered from the beginning of an object on, and go on behind
its end.

* `Store`, `run` — bytes stored at an offset, and stores one after the other.
* `load`, `stringAt` — the bytes at an offset, and the string in an array there, which is
  one only if it ends inside the array.
* `load_run` — of stores that do not overlap each is found again.
* `stringAt_eq_some`, `length_lt_of_stringAt` — a string with the zero that ends it is
  found in an array exactly if it is shorter.
-/

namespace LinuxProgram.Lib.Stores

abbrev Memory := ℕ → UInt8

/-- **Bytes stored at an offset.**  Nothing keeps a store inside of an object. -/
structure Store where
  offset : ℕ
  bytes : List UInt8

namespace Store

/-- The offset behind it. -/
def stop (st : Store) : ℕ := st.offset + st.bytes.length

def apply (st : Store) (m : Memory) : Memory := fun i =>
  if st.offset ≤ i ∧ i < st.stop then st.bytes.getD (i - st.offset) 0 else m i

/-- It writes only from `lo` to `hi`. -/
def Inside (lo hi : ℕ) (st : Store) : Prop := lo ≤ st.offset ∧ st.stop ≤ hi

/-- They have no byte in common. -/
def Apart (st st' : Store) : Prop := st.stop ≤ st'.offset ∨ st'.stop ≤ st.offset

end Store

/-- **Stores one after the other**, of which a later one may write over an earlier one. -/
def run (stores : List Store) (m : Memory) : Memory := stores.foldl (fun m st => st.apply m) m

/-- **The bytes at an offset.** -/
def load (m : Memory) (offset n : ℕ) : List UInt8 := (List.range n).map fun i => m (offset + i)

/-- **The string in an array** of `size` bytes, or nothing if none of the bytes is the zero that
ends it. -/
def stringAt (m : Memory) (offset size : ℕ) : Option (List UInt8) :=
  if 0 ∈ load m offset size then some ((load m offset size).takeWhile (· ≠ 0)) else none

variable {m : Memory} {st : Store} {stores : List Store} {offset n size : ℕ} {s : List UInt8}

@[simp] theorem length_load (m : Memory) (offset n : ℕ) : (load m offset n).length = n := by
  rw [load, List.length_map, List.length_range]

theorem getElem_load {i : ℕ} (h : i < (load m offset n).length) :
    (load m offset n)[i] = m (offset + i) := by
  simp only [load, List.getElem_map, List.getElem_range]

theorem load_add (m : Memory) (offset n k : ℕ) :
    load m offset (n + k) = load m offset n ++ load m (offset + n) k := by
  rw [load, List.range_add, List.map_append, List.map_map, load, load]
  congr 1
  apply List.map_congr_left
  intro i _
  rw [Function.comp_apply, Nat.add_assoc]

/-! ### Stores -/

theorem run_cons (st : Store) (stores : List Store) (m : Memory) :
    run (st :: stores) m = run stores (st.apply m) := rfl

theorem load_apply_self (st : Store) (m : Memory) :
    load (st.apply m) st.offset st.bytes.length = st.bytes := by
  apply List.ext_getElem
  · exact length_load _ _ _
  · intro i _ hi
    have hinside : st.offset ≤ st.offset + i ∧ st.offset + i < st.stop :=
      ⟨Nat.le_add_right _ _, Nat.add_lt_add_left hi _⟩
    rw [getElem_load, Store.apply, if_pos hinside, Nat.add_sub_cancel_left,
      List.getD_eq_getElem _ _ hi]

theorem load_apply_of_apart (h : st.stop ≤ offset ∨ offset + n ≤ st.offset) (m : Memory) :
    load (st.apply m) offset n = load m offset n := by
  apply List.map_congr_left
  intro i hi
  have hlt := List.mem_range.mp hi
  unfold Store.apply
  rw [if_neg]
  omega

/-- What no store touches stays as it is. -/
theorem load_run_of_apart (h : ∀ st ∈ stores, st.stop ≤ offset ∨ offset + n ≤ st.offset)
    (m : Memory) : load (run stores m) offset n = load m offset n := by
  induction stores generalizing m with
  | nil => rfl
  | cons st stores ih =>
      rw [List.forall_mem_cons] at h
      rw [run_cons, ih h.2, load_apply_of_apart h.1]

/-- **Stores that do not overlap** are found again, each of them, whatever their order. -/
theorem load_run (h : stores.Pairwise Store.Apart) (hst : st ∈ stores) (m : Memory) :
    load (run stores m) st.offset st.bytes.length = st.bytes := by
  induction stores generalizing m with
  | nil => nomatch hst
  | cons st' stores ih =>
      obtain ⟨hapart, hrest⟩ := List.pairwise_cons.mp h
      rw [run_cons]
      rcases List.mem_cons.mp hst with rfl | hst
      · rw [load_run_of_apart fun st' hst' => (hapart st' hst').symm]
        exact load_apply_self st m
      · exact ih hrest hst _

/-- Stores in ascending order do not overlap. -/
theorem apart_of_isChain (h : stores.IsChain fun st st' => st.stop ≤ st'.offset) :
    stores.Pairwise Store.Apart := by
  have htrans : ∀ a b c : Store, a.stop ≤ b.offset → b.stop ≤ c.offset → a.stop ≤ c.offset := by
    intro a b c hab hbc
    have hb : b.offset ≤ b.stop := Nat.le_add_right _ _
    exact (hab.trans hb).trans hbc
  have : IsTrans Store fun st st' => st.stop ≤ st'.offset := ⟨htrans⟩
  exact (List.isChain_iff_pairwise.mp h).imp Or.inl

/-! ### Strings -/

/-- **A string that is shorter than the array** is found in it. -/
theorem stringAt_eq_some (hs : 0 ∉ s) (hlt : s.length < size)
    (h : load m offset (s.length + 1) = s ++ [0]) : stringAt m offset size = some s := by
  obtain ⟨k, rfl⟩ : ∃ k, size = s.length + 1 + k := ⟨_, (Nat.add_sub_cancel' hlt).symm⟩
  have hload : load m offset (s.length + 1 + k) = s ++ 0 :: load m (offset + (s.length + 1)) k := by
    rw [load_add, h, List.append_assoc, List.singleton_append]
  have hnonzero : ∀ x ∈ s, decide (x ≠ 0) = true := fun x hx =>
    decide_eq_true fun hzero => hs (hzero ▸ hx)
  rw [stringAt, hload, if_pos (List.mem_append_right _ (.head _)),
    List.takeWhile_append_of_pos hnonzero, List.takeWhile_cons_of_neg (by decide),
    List.append_nil]

/-- **A string in an array** is shorter than the array, by the zero at least. -/
theorem length_lt_of_stringAt (h : stringAt m offset size = some s) : s.length < size := by
  unfold stringAt at h
  split at h
  · rename_i hzero
    obtain rfl := Option.some.inj h
    by_contra hle
    have hlength := congrArg List.length
      (List.takeWhile_append_dropWhile (p := (· ≠ (0 : UInt8))) (l := load m offset size))
    rw [List.length_append, length_load] at hlength
    have hnil : (load m offset size).dropWhile (· ≠ (0 : UInt8)) = [] :=
      List.length_eq_zero_iff.mp (by omega)
    exact absurd (List.dropWhile_eq_nil_iff.mp hnil 0 hzero) (by decide)
  · nomatch h

end LinuxProgram.Lib.Stores
