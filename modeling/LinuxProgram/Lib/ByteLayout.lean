import Mathlib

/-!
# Byte layouts

Records that are laid out in memory field by field, without padding.

* `le`, `ofLE` — a number in a given number of bytes, the lowest byte first.
* `slice`, `num` — the bytes at an offset of a memory, and the number in them.  Bytes
  past the end of the memory read as zero.
* `slice_field`, `num_field` — a field of a record is found behind the fields in front
  of it.
-/

namespace LinuxProgram.Lib.ByteLayout

/-- **A number in `n` bytes**, the lowest first.  What does not fit is cut off. -/
def le : ℕ → ℕ → List UInt8
  | 0, _ => []
  | n + 1, x => UInt8.ofNat x :: le n (x / 256)

/-- The number in some bytes. -/
def ofLE (bytes : List UInt8) : ℕ := bytes.foldr (fun b acc => b.toNat + 256 * acc) 0

/-- The bytes at an offset. -/
def slice (memory : List UInt8) (offset length : ℕ) : List UInt8 :=
  (List.range length).map fun i => memory.getD (offset + i) 0

/-- The number at an offset. -/
def num (memory : List UInt8) (offset length : ℕ) : ℕ := ofLE (slice memory offset length)

@[simp] theorem length_le (n x : ℕ) : (le n x).length = n := by
  induction n generalizing x with
  | zero => rfl
  | succ n ih => rw [le, List.length_cons, ih]

@[simp] theorem length_slice (memory : List UInt8) (offset length : ℕ) :
    (slice memory offset length).length = length := by
  rw [slice, List.length_map, List.length_range]

theorem le_eq_map (n x : ℕ) : le n x = (List.range n).map fun i => UInt8.ofNat (x / 256 ^ i) := by
  induction n generalizing x with
  | zero => rfl
  | succ n ih =>
      rw [le, ih, List.range_succ_eq_map, List.map_cons, List.map_map, pow_zero, Nat.div_one]
      congr 1
      apply List.map_congr_left
      intro i _
      rw [Function.comp_apply, Nat.div_div_eq_div_mul, Nat.succ_eq_add_one, pow_succ']

/-- **A number that fits is read back.** -/
theorem ofLE_le {n x : ℕ} (h : x < 256 ^ n) : ofLE (le n x) = x := by
  induction n generalizing x with
  | zero =>
      obtain rfl : x = 0 := Nat.lt_one_iff.mp h
      rfl
  | succ n ih =>
      have hdiv : x / 256 < 256 ^ n := by
        rw [Nat.div_lt_iff_lt_mul (by decide), ← pow_succ]
        exact h
      have hcons : ofLE (le (n + 1) x) = (UInt8.ofNat x).toNat + 256 * ofLE (le n (x / 256)) := rfl
      rw [hcons, ih hdiv, UInt8.toNat_ofNat']
      exact Nat.mod_add_div x 256

theorem ofLE_lt (bytes : List UInt8) : ofLE bytes < 256 ^ bytes.length := by
  induction bytes with
  | nil => exact one_pos
  | cons b bytes ih =>
      have hb := b.toNat_lt
      have hcons : ofLE (b :: bytes) = b.toNat + 256 * ofLE bytes := rfl
      rw [hcons, List.length_cons, pow_succ]
      omega

theorem num_lt (memory : List UInt8) (offset length : ℕ) :
    num memory offset length < 256 ^ length := by
  have h := ofLE_lt (slice memory offset length)
  rwa [length_slice] at h

/-- **What stands at an offset is found there.** -/
theorem slice_append (A B C : List UInt8) : slice (A ++ (B ++ C)) A.length B.length = B := by
  apply List.ext_getElem
  · exact length_slice _ _ _
  · intro i _ hi
    have hget : (slice (A ++ (B ++ C)) A.length B.length)[i]
        = (A ++ (B ++ C)).getD (A.length + i) 0 := by simp [slice]
    rw [hget, List.getD_eq_getElem?_getD, List.getElem?_append_right (Nat.le_add_right _ _),
      Nat.add_sub_cancel_left, List.getElem?_append_left hi, List.getElem?_eq_getElem hi,
      Option.getD_some]

/-- A field stands behind the fields in front of it. -/
theorem exists_eq_append {memory A C : List UInt8} {fields : List (List UInt8)}
    (hmemory : memory = A ++ (fields.flatten ++ C)) {k : ℕ} {field : List UInt8}
    (hk : fields[k]? = some field) :
    ∃ C', memory = (A ++ (fields.take k).flatten) ++ (field ++ C') := by
  have hfields : fields = fields.take k ++ field :: fields.drop (k + 1) := by
    obtain ⟨hlt, rfl⟩ := List.getElem?_eq_some_iff.mp hk
    rw [List.getElem_cons_drop, List.take_append_drop]
  refine ⟨(fields.drop (k + 1)).flatten ++ C, ?_⟩
  rw [hmemory]
  conv_lhs => rw [hfields]
  simp only [List.flatten_append, List.flatten_cons, List.append_assoc]

/-- **A field of a record** is found behind those in front of it. -/
theorem slice_field {memory A C : List UInt8} {fields : List (List UInt8)}
    (hmemory : memory = A ++ (fields.flatten ++ C)) {k : ℕ} {field : List UInt8}
    (hk : fields[k]? = some field) :
    slice memory (A.length + (fields.take k).flatten.length) field.length = field := by
  obtain ⟨C', hsplit⟩ := exists_eq_append hmemory hk
  rw [hsplit, ← List.length_append]
  exact slice_append _ _ _

/-- **A number in a record** is found in the same way, if it fits its field. -/
theorem num_field {memory A C : List UInt8} {fields : List (List UInt8)}
    (hmemory : memory = A ++ (fields.flatten ++ C)) {k n x : ℕ}
    (hk : fields[k]? = some (le n x)) (hx : x < 256 ^ n) :
    num memory (A.length + (fields.take k).flatten.length) n = x := by
  have h := slice_field hmemory hk
  rw [length_le] at h
  rw [num, h, ofLE_le hx]

end LinuxProgram.Lib.ByteLayout
