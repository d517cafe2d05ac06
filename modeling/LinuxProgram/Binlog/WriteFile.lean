import LinuxProgram.Binlog.Record
import LinuxProgram.Lib.Pieces

/-!
# write2File

`write2File` of `serialization.h` calls `write` until nothing is left.  It keeps the
length that is left, and not the position in the buffer.

* `write2File` — the loop, with the results of the calls of `write`.
* `ShortWrites` — results that are positive and at most what was asked for.
* `write2File_iff` — what is appended is the buffer exactly if behind every short write
  the buffer goes on as it begins.
* `write2File_all_iff` — for all short writes, that is so if all bytes are the same.
* `write2File_restarts` — two bytes, one at a time.
-/

namespace LinuxProgram.Binlog

open Lib.Pieces

/-- **`write2File`**, for the results of `write` in order: what is appended to the file.  It
does not return when there is no further result, or after one that is not positive, where
the assertion fails. -/
def write2File (buffer : Bytes) : ℕ → List ℤ → Option Bytes
  | 0, _ => some []
  | _ + 1, [] => none
  | len + 1, count :: counts =>
      if count > 0 then
        -- `buffer` is the same in every call
        (write2File buffer (len + 1 - count.toNat) counts).map (buffer.take count.toNat ++ ·)
      else none

/-- **Results of `write`** that are positive and at most what was asked for, until nothing is
left of `len` bytes. -/
inductive ShortWrites : ℕ → List ℤ → Prop
  | done : ShortWrites 0 []
  | write {len : ℕ} {count : ℤ} {counts : List ℤ} (hpos : 0 < count) (hle : count ≤ len)
      (hrest : ShortWrites (len - count.toNat) counts) : ShortWrites len (count :: counts)

variable {buffer : Bytes} {len : ℕ} {counts : List ℤ}

/-- They are what is written in the end. -/
theorem ShortWrites.sum_eq (h : ShortWrites len counts) : (counts.map Int.toNat).sum = len := by
  induction h with
  | done => rfl
  | write hpos hle _ ih =>
      rw [List.map_cons, List.sum_cons, ih]
      exact Nat.add_sub_cancel' (Int.toNat_le.mpr hle)

theorem ShortWrites.pos (h : ShortWrites len counts) : ∀ count ∈ counts, 0 < count.toNat := by
  induction h with
  | done => exact List.forall_mem_nil _
  | write hpos _ _ ih => exact List.forall_mem_cons.mpr ⟨Int.pos_iff_toNat_pos.mp hpos, ih⟩

/-- All numbers that make up the length are such results. -/
theorem shortWrites_of_sum {ns : List ℕ} (hpos : ∀ n ∈ ns, 0 < n) (hsum : ns.sum = len) :
    ShortWrites len (ns.map Nat.cast) := by
  induction ns generalizing len with
  | nil =>
      obtain rfl : len = 0 := hsum.symm
      exact .done
  | cons n ns ih =>
      rw [List.forall_mem_cons] at hpos
      rw [List.sum_cons] at hsum
      refine .write (Int.natCast_pos.mpr hpos.1) (Int.ofNat_le.mpr (by omega)) ?_
      rw [Int.toNat_natCast]
      exact ih hpos.2 (by omega)

/-- **What is appended**: the front of the buffer, again and again. -/
theorem write2File_eq (buffer : Bytes) (h : ShortWrites len counts) :
    write2File buffer len counts = some (fromFront buffer (counts.map Int.toNat)) := by
  induction h with
  | done => rfl
  | @write len count counts hpos hle _ ih =>
      obtain ⟨len, rfl⟩ : ∃ n, len = n + 1 := Nat.exists_eq_succ_of_ne_zero (by omega)
      rw [write2File, if_pos hpos, ih]
      rfl

/-- **A buffer is appended** exactly if it goes on, wherever a write ends, as it begins.  The loop
counts what is left and does not move the pointer, so that behind a short write it writes the
beginning again. -/
theorem write2File_iff (hbuffer : len ≤ buffer.length) (h : ShortWrites len counts) :
    ∃ appended, write2File buffer len counts = some appended ∧
      (appended = buffer.take len ↔ Repeats buffer (counts.map Int.toNat)) := by
  have hsum := h.sum_eq
  refine ⟨_, write2File_eq buffer h, ?_⟩
  rw [← fromFront_eq_iff (by rw [hsum]; exact hbuffer), hsum]

/-- Three equal bytes, in two pieces. -/
theorem write2File_equal : ∃ appended, write2File [7, 7, 7] 3 [1, 2] = some appended ∧
    (appended = [7, 7, 7] ↔ Repeats ([7, 7, 7] : Bytes) [1, 2]) := by
  have hbuffer : 3 ≤ ([7, 7, 7] : Bytes).length := by decide
  have hwrites : ShortWrites 3 [1, 2] :=
    .write (by decide) (by decide) (.write (by decide) (by decide) .done)
  exact write2File_iff hbuffer hwrites

/-- **Two bytes**, one at a time: the first one is written twice. -/
theorem write2File_restarts : ¬ ∀ (buffer : Bytes) (len : ℕ) (counts : List ℤ),
    len ≤ buffer.length → ShortWrites len counts →
      write2File buffer len counts = some (buffer.take len) := by
  intro h
  have htwo := h [1, 2] 2 [1, 1] (by decide)
    (.write (by decide) (by decide) (.write (by decide) (by decide) .done))
  exact absurd htwo (by decide)

/-- **However it is written**, a buffer is appended if all its bytes are the same, and
otherwise not. -/
theorem write2File_all_iff (buffer : Bytes) :
    (∀ counts, ShortWrites buffer.length counts →
      write2File buffer buffer.length counts = some buffer) ↔
    ∀ i (hi : i < buffer.length), buffer[i] = buffer[0] := by
  have hright : ∀ counts, ShortWrites buffer.length counts →
      (write2File buffer buffer.length counts = some buffer ↔
        Repeats buffer (counts.map Int.toNat)) := by
    intro counts h
    have hsum := h.sum_eq
    rw [write2File_eq buffer h, Option.some_inj, ← fromFront_eq_iff hsum.le, hsum,
      List.take_length]
  rw [← repeats_all_iff]
  constructor
  · intro h ns hpos hsum
    have hwrites := shortWrites_of_sum hpos hsum
    have hrepeats := (hright _ hwrites).mp (h _ hwrites)
    rw [List.map_map] at hrepeats
    exact (List.map_id ns) ▸ hrepeats
  · intro h counts hwrites
    refine (hright counts hwrites).mpr (h _ (fun n hn => ?_) hwrites.sum_eq)
    obtain ⟨count, hcount, rfl⟩ := List.mem_map.mp hn
    exact hwrites.pos count hcount

end LinuxProgram.Binlog
