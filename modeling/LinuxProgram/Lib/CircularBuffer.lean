import Mathlib

/-!
# Circular buffers

The cells of an array between two places, around its end.  One cell stays free, so that the
buffer is empty if and only if the places are the same.

* `segment` — cells one after the other.
* `contents` — what is in the buffer, from the place to read to the place to write.
* `free` — how much more fits.
* `contents_put`, `contents_get` — what is put comes to the end, and what is got was in front.
-/

namespace LinuxProgram.Lib.CircularBuffer

universe u

variable {α : Type u} {cells xs : List α} {n a b c rp wp k : ℕ}

/-! ### Segments -/

/-- **Cells one after the other**, from the place `a` up to the place `b`. -/
def segment (cells : List α) (a b : ℕ) : List α := (cells.drop a).take (b - a)

/-- The array after values were stored at a place. -/
def patch (cells : List α) (p : ℕ) (xs : List α) : List α :=
  cells.take p ++ xs ++ cells.drop (p + xs.length)

@[simp] theorem segment_self (cells : List α) (a : ℕ) : segment cells a a = [] := by
  rw [segment, Nat.sub_self, List.take_zero]

theorem length_segment (h : b ≤ cells.length) : (segment cells a b).length = b - a := by
  rw [segment, List.length_take, List.length_drop]
  omega

theorem segment_append (hab : a ≤ b) (hbc : b ≤ c) :
    segment cells a b ++ segment cells b c = segment cells a c := by
  obtain ⟨i, rfl⟩ := Nat.exists_eq_add_of_le hab
  obtain ⟨j, rfl⟩ := Nat.exists_eq_add_of_le hbc
  rw [segment, segment, segment, Nat.add_sub_cancel_left, Nat.add_sub_cancel_left, Nat.add_assoc,
    Nat.add_sub_cancel_left, List.take_add, List.drop_drop]

theorem getElem?_segment (cells : List α) (a b i : ℕ) :
    (segment cells a b)[i]? = if i < b - a then cells[a + i]? else none := by
  rw [segment, List.getElem?_take, List.getElem?_drop]

theorem getElem?_patch {p : ℕ} (hp : p + xs.length ≤ cells.length) (i : ℕ) :
    (patch cells p xs)[i]? =
      if p ≤ i ∧ i < p + xs.length then xs[i - p]? else cells[i]? := by
  have hfront : (cells.take p).length = p := by
    rw [List.length_take]
    omega
  rw [patch, List.append_assoc, List.getElem?_append, hfront]
  by_cases hlt : i < p
  · rw [if_pos hlt, if_neg (by omega), List.getElem?_take_of_lt hlt]
  · rw [if_neg hlt, List.getElem?_append]
    by_cases hin : i - p < xs.length
    · rw [if_pos hin, if_pos (by omega)]
    · rw [if_neg hin, if_neg (by omega), List.getElem?_drop]
      congr 1
      omega

theorem length_patch {p : ℕ} (hp : p + xs.length ≤ cells.length) :
    (patch cells p xs).length = cells.length := by
  simp only [patch, List.length_append, List.length_take, List.length_drop]
  omega

/-- A segment apart from what was stored. -/
theorem segment_patch_of_disjoint {p : ℕ} (hp : p + xs.length ≤ cells.length)
    (hdisjoint : b ≤ p ∨ p + xs.length ≤ a) :
    segment (patch cells p xs) a b = segment cells a b := by
  refine List.ext_getElem? fun i => ?_
  rw [getElem?_segment, getElem?_segment]
  split
  · rw [getElem?_patch hp, if_neg (by omega)]
  · rfl

/-- What was stored is found at the place where it was stored. -/
theorem segment_patch_self {p : ℕ} (hp : p + xs.length ≤ cells.length) :
    segment (patch cells p xs) p (p + xs.length) = xs := by
  refine List.ext_getElem? fun i => ?_
  rw [getElem?_segment, Nat.add_sub_cancel_left, getElem?_patch hp]
  split
  · rw [if_pos (by omega), Nat.add_sub_cancel_left]
  · rw [List.getElem?_eq_none (by omega)]

/-! ### The buffer -/

/-- A place at the end is the first one. -/
def wrap (n p : ℕ) : ℕ := if p = n then 0 else p

theorem wrap_lt {p : ℕ} (hn : 0 < n) (h : p ≤ n) : wrap n p < n := by
  rw [wrap]
  split <;> omega

theorem wrap_of_lt {p : ℕ} (h : p < n) : wrap n p = p := if_neg h.ne

@[simp] theorem wrap_wrap (n p : ℕ) : wrap n (wrap n p) = wrap n p := by
  rw [wrap, wrap]
  split
  · split <;> omega
  · rfl

/-- **What is in the buffer** of `n` cells, from the place to read to the place to write, around the
end if the second one is in front of the first. -/
def contents (cells : List α) (n rp wp : ℕ) : List α :=
  if rp ≤ wp then segment cells rp wp else segment cells rp n ++ segment cells 0 wp

/-- How many cells can be written.  One of those that hold nothing is left out, so that the places
are not the same when the buffer is full. -/
def free (n rp wp : ℕ) : ℕ := if rp ≤ wp then n - 1 - (wp - rp) else rp - wp - 1

@[simp] theorem contents_self (cells : List α) (n p : ℕ) : contents cells n p p = [] := by
  rw [contents, if_pos le_rfl, segment_self]

theorem length_contents (hn : n ≤ cells.length) (hrp : rp < n) (hwp : wp < n) :
    (contents cells n rp wp).length + free n rp wp = n - 1 := by
  rw [contents, free]
  split
  · rw [length_segment (by omega)]
    omega
  · rw [List.length_append, length_segment hn, length_segment (by omega)]
    omega

/-- How much can be written at once, without going around the end. -/
def putRoom (n rp wp : ℕ) : ℕ := min (free n rp wp) (if rp ≤ wp then n - wp else rp - wp - 1)

/-- How much can be read at once, without going around the end. -/
def getRoom (n rp wp : ℕ) : ℕ := if rp ≤ wp then wp - rp else n - rp

/-- **Putting** values behind the others: they are stored at the place to write, which moves by as
many, and to the beginning if it has come to the end. -/
theorem contents_put (hn : n ≤ cells.length) (hrp : rp < n) (hwp : wp < n)
    (hroom : xs.length ≤ putRoom n rp wp) :
    contents (patch cells wp xs) n rp (wrap n (wp + xs.length)) =
      contents cells n rp wp ++ xs := by
  rw [putRoom, free] at hroom
  by_cases hle : rp ≤ wp
  · rw [if_pos hle, if_pos hle] at hroom
    have hfits : wp + xs.length ≤ cells.length := by omega
    have hall : segment (patch cells wp xs) rp (wp + xs.length) = segment cells rp wp ++ xs := by
      rw [← segment_append hle (Nat.le_add_right wp _), segment_patch_self hfits,
        segment_patch_of_disjoint hfits (.inl le_rfl)]
    rw [contents, contents, if_pos hle, wrap]
    by_cases hend : wp + xs.length = n
    · rw [if_pos hend]
      by_cases hzero : rp ≤ 0
      · -- the buffer would be full, and has one cell
        have hxs : xs = [] := List.length_eq_zero_iff.mp (by omega)
        have hwp : rp = wp := by omega
        rw [if_pos hzero, Nat.le_zero.mp hzero, segment_self, hxs, ← hwp, Nat.le_zero.mp hzero,
          segment_self]
        rfl
      · rw [if_neg hzero, segment_self, List.append_nil, ← hend, hall]
    · rw [if_neg hend, if_pos (by omega), hall]
  · rw [if_neg hle, if_neg hle] at hroom
    have hfits : wp + xs.length ≤ cells.length := by omega
    have hend : ¬rp ≤ wp + xs.length := by omega
    rw [contents, contents, if_neg hle, wrap_of_lt (by omega), if_neg hend,
      ← segment_append (Nat.zero_le wp) (Nat.le_add_right wp xs.length), segment_patch_self hfits,
      segment_patch_of_disjoint hfits (.inr (by omega)),
      segment_patch_of_disjoint hfits (.inl le_rfl), List.append_assoc]

/-- Storing values where there is room changes nothing until the place to write moves. -/
theorem contents_patch (hn : n ≤ cells.length) (hrp : rp < n) (hwp : wp < n)
    (hroom : xs.length ≤ putRoom n rp wp) :
    contents (patch cells wp xs) n rp wp = contents cells n rp wp := by
  rw [putRoom, free] at hroom
  rw [contents, contents]
  by_cases hle : rp ≤ wp
  · rw [if_pos hle, if_pos hle] at hroom
    rw [if_pos hle, if_pos hle, segment_patch_of_disjoint (by omega) (.inl le_rfl)]
  · rw [if_neg hle, if_neg hle] at hroom
    rw [if_neg hle, if_neg hle, segment_patch_of_disjoint (by omega) (.inr (by omega)),
      segment_patch_of_disjoint (by omega) (.inl le_rfl)]

/-- **Getting** the values in front: the place to read moves over them, and the rest stays in the
buffer. -/
theorem contents_get (hwp : wp < n) (hrp : rp < n) (hroom : k ≤ getRoom n rp wp) :
    contents cells n rp wp =
      segment cells rp (rp + k) ++ contents cells n (wrap n (rp + k)) wp := by
  rw [getRoom] at hroom
  by_cases hle : rp ≤ wp
  · rw [if_pos hle] at hroom
    have hin : rp + k ≤ wp := by omega
    rw [contents, contents, if_pos hle, wrap_of_lt (by omega), if_pos hin,
      segment_append (Nat.le_add_right rp k) hin]
  · rw [if_neg hle] at hroom
    rw [contents, contents, if_neg hle, wrap]
    by_cases hend : rp + k = n
    · rw [if_pos hend, if_pos (Nat.zero_le wp), hend]
    · have hout : ¬rp + k ≤ wp := by omega
      rw [if_neg hend, if_neg hout, ← List.append_assoc,
        segment_append (Nat.le_add_right rp k) (by omega)]

/-- Something can be put if the buffer is not full. -/
theorem putRoom_pos (hwp : wp < n) (h : 0 < free n rp wp) : 0 < putRoom n rp wp := by
  rw [free] at h
  rw [putRoom, free]
  split <;> split at h <;> omega

/-- Something can be got if the buffer is not empty. -/
theorem getRoom_pos (hrp : rp < n) (h : rp ≠ wp) : 0 < getRoom n rp wp := by
  rw [getRoom]
  split <;> omega

end LinuxProgram.Lib.CircularBuffer
