import Mathlib

/-!
# Files with holes

A file in blocks of a fixed size.  A block comes into being when something is written in it, and
what was never written has no value until then.

An implementation that finds a block by a number of fixed width cannot tell positions apart that are
a multiple of some period from each other.  The period belongs to the blocks here, so that such an
implementation has a specification too; with a period of 0 addresses never start again, and the
file is a plain one.  Below the period the two are the same.

* `Blocks` — the size of a block, and the positions after which the addresses start again.
  `addr` is the address of a position, and `room` how far it is to the end of its block.
* `Blocks.plain` — blocks of the same size whose addresses are the positions.
* `SparseFile` — a size, and the cells that have a value.
* `read`, `fill`, `write` — what is done within one block: `fill` gives values to the block and
  stores there, and `write` moves the end of the file.
* `read_plain`, `fill_plain`, `write_plain` — below the period they are those of a plain file.
* `cell_fill_at`, `cell_fill_other` — what is at a position after that.
* `Is` — the file is a list; `Is.write` and `Is.read`.
-/

namespace LinuxProgram.Lib

/-- **Blocks** of positions.  Positions that are a multiple of `period` apart have the same address;
if it is 0, none have. -/
structure Blocks where
  block : ℕ
  period : ℕ
  block_pos : 0 < block
  dvd : block ∣ period

namespace Blocks

variable (g : Blocks) {p i : ℕ}

def addr (p : ℕ) : ℕ := p % g.period

/-- How many positions there are from `p` to the end of its block. -/
def room (p : ℕ) : ℕ := g.block - p % g.block

theorem room_pos : 0 < g.room p := Nat.sub_pos_of_lt (Nat.mod_lt _ g.block_pos)

theorem addr_mod : g.addr p % g.block = p % g.block := Nat.mod_mod_of_dvd p g.dvd

/-- Behind an address in a block come the others of the block. -/
theorem addr_add (h : i < g.room p) : g.addr (p + i) = g.addr p + i := by
  rcases Nat.eq_zero_or_pos g.period with hzero | hperiod
  · rw [addr, addr, hzero, Nat.mod_zero, Nat.mod_zero]
  rw [addr, addr, Nat.add_mod, Nat.mod_eq_of_lt (b := g.period) (a := _ + i % g.period)]
  · congr 1
    refine Nat.mod_eq_of_lt (lt_of_lt_of_le h ((Nat.sub_le _ _).trans ?_))
    exact Nat.le_of_dvd hperiod g.dvd
  · -- the address and the end of its block are in one period
    obtain ⟨k, hk⟩ := g.dvd
    have haddr : p % g.period = g.block * (p % g.period / g.block) + p % g.block := by
      rw [← Nat.mod_mod_of_dvd p g.dvd, Nat.div_add_mod]
    have hlt : p % g.period / g.block < k := by
      rw [Nat.div_lt_iff_lt_mul g.block_pos, mul_comm, ← hk]
      exact Nat.mod_lt _ hperiod
    have hle : g.block * (p % g.period / g.block) + g.block ≤ g.period := by
      have hmul := Nat.mul_le_mul_left g.block (Nat.succ_le_of_lt hlt)
      rwa [Nat.mul_succ, ← hk] at hmul
    have hmod : i % g.period ≤ i := Nat.mod_le _ _
    have hin := Nat.mod_lt p g.block_pos
    rw [room] at h
    omega

/-- They are in the same block. -/
theorem add_div (h : i < g.room p) : (g.addr p + i) / g.block = g.addr p / g.block := by
  have hmod := g.addr_mod (p := p)
  have hin := Nat.mod_lt p g.block_pos
  have hi : i < g.block := h.trans_le (Nat.sub_le _ _)
  have hend : ¬g.block ≤ p % g.block + i := by
    rw [room] at h
    omega
  rw [Nat.add_div g.block_pos, hmod, Nat.div_eq_of_lt hi, Nat.mod_eq_of_lt hi, if_neg hend,
    Nat.add_zero]

/-- Two positions that are less than a period apart have different addresses. -/
theorem addr_ne {j : ℕ} (hlt : i < j) (hperiod : j - i < g.period) :
    g.addr (p + i) ≠ g.addr (p + j) := by
  intro h
  have hdvd := (Nat.modEq_iff_dvd' (Nat.add_le_add_left hlt.le p)).mp h
  rw [Nat.add_sub_add_left] at hdvd
  exact absurd (Nat.le_of_dvd (Nat.sub_pos_of_lt hlt) hdvd) (not_le.mpr hperiod)

/-- **Blocks of a plain file**, whose addresses are the positions. -/
def plain : Blocks := ⟨g.block, 0, g.block_pos, dvd_zero _⟩

@[simp] theorem addr_plain (p : ℕ) : g.plain.addr p = p := Nat.mod_zero p

@[simp] theorem room_plain (p : ℕ) : g.plain.room p = g.room p := rfl

/-- Below the period the address is the position. -/
theorem addr_of_lt (h : p < g.period) : g.addr p = p := Nat.mod_eq_of_lt h

end Blocks

/-- **A file with holes**: the cells that have a value, and the size that reading goes up to. -/
structure SparseFile (β : Type*) where
  size : ℕ
  /-- A hole is `none`. -/
  cell : ℕ → Option β

namespace SparseFile

variable {β : Type*} {f : SparseFile β} {g : Blocks}

def empty : SparseFile β := ⟨0, fun _ => none⟩

/-- The values of cells one after the other. -/
def range (f : SparseFile β) (a n : ℕ) : List β := (List.range n).filterMap fun i => f.cell (a + i)

/-- **Reading** ends at the end of the file and at that of the block, and a hole gives nothing. -/
def read (f : SparseFile β) (g : Blocks) (p count : ℕ) : List β :=
  f.range (g.addr p) (min (min count (f.size - p)) (g.room p))

/-- **Storing** at a position, in whose block every cell gets a value. -/
def fill (f : SparseFile β) (g : Blocks) (blank : β) (p : ℕ) (values : List β) : SparseFile β :=
  { f with cell := fun a =>
      if a / g.block = g.addr p / g.block then
        if g.addr p ≤ a ∧ a < g.addr p + values.length then values[a - g.addr p]?
        else some ((f.cell a).getD blank)
      else f.cell a }

/-- **Writing** as much as the block has room for.  A block that is new gets a blank in every cell
that is not written. -/
def write (f : SparseFile β) (g : Blocks) (blank : β) (p : ℕ) (values : List β) : SparseFile β :=
  { f.fill g blank p (values.take (g.room p)) with
    size := max f.size (p + min values.length (g.room p)) }

/-! ### Below the period -/

theorem read_plain {p : ℕ} (h : p < g.period) (count : ℕ) :
    f.read g p count = f.read g.plain p count := by
  rw [read, read, g.addr_of_lt h, g.addr_plain, g.room_plain]

theorem fill_plain {p : ℕ} (h : p < g.period) (blank : β) (values : List β) :
    f.fill g blank p values = f.fill g.plain blank p values := by
  rw [fill, fill, g.addr_of_lt h, g.addr_plain]
  rfl

theorem write_plain {p : ℕ} (h : p < g.period) (blank : β) (values : List β) :
    f.write g blank p values = f.write g.plain blank p values := by
  rw [write, write, fill_plain h, g.room_plain]

/-! ### Cells one after the other -/

@[simp] theorem range_zero (a : ℕ) : f.range a 0 = [] := rfl

theorem range_succ (a n : ℕ) : f.range a (n + 1) = (f.cell a).toList ++ f.range (a + 1) n := by
  rw [range, List.range_succ_eq_map, List.filterMap_cons, List.filterMap_map, range, Nat.add_zero]
  have hshift : (fun i => f.cell (a + i)) ∘ Nat.succ = fun i => f.cell (a + 1 + i) := by
    funext i
    rw [Function.comp_apply, Nat.succ_eq_add_one, Nat.add_assoc, Nat.add_comm i 1]
  rw [hshift]
  cases f.cell a with
  | none => rfl
  | some x => rfl

/-- What is read of cells that have values. -/
theorem range_eq {a : ℕ} {values : List β}
    (h : ∀ i (hi : i < values.length), f.cell (a + i) = some values[i]) :
    f.range a values.length = values := by
  induction values generalizing a with
  | nil => rfl
  | cons x values ih =>
      have hrest : f.range (a + 1) values.length = values := by
        refine ih fun i hi => ?_
        rw [Nat.add_assoc, Nat.add_comm 1]
        exact h (i + 1) (Nat.succ_lt_succ hi)
      rw [List.length_cons, range_succ, hrest, ← Nat.add_zero a, h 0 (Nat.succ_pos _)]
      rfl

/-- Nothing is read of holes. -/
theorem range_eq_nil {a n : ℕ} (h : ∀ i < n, f.cell (a + i) = none) : f.range a n = [] := by
  rw [range, List.filterMap_eq_nil_iff]
  intro i hi
  exact h i (List.mem_range.mp hi)

/-! ### What is stored -/

/-- **What was stored** is there. -/
theorem cell_fill_at (f : SparseFile β) (blank : β) {p i : ℕ} {values : List β}
    (hroom : values.length ≤ g.room p) (hi : i < values.length) :
    (f.fill g blank p values).cell (g.addr (p + i)) = some values[i] := by
  rw [g.addr_add (hi.trans_le hroom), fill]
  dsimp only
  rw [if_pos (g.add_div (hi.trans_le hroom)), if_pos ⟨Nat.le_add_right _ _, by omega⟩,
    Nat.add_sub_cancel_left, List.getElem?_eq_getElem hi]

/-- **What has a value** keeps it elsewhere. -/
theorem cell_fill_other {blank x : β} {p a : ℕ} {values : List β} (hx : f.cell a = some x)
    (hout : ∀ i < values.length, a ≠ g.addr p + i) :
    (f.fill g blank p values).cell a = some x := by
  rw [fill]
  dsimp only
  split
  · rw [if_neg, hx, Option.getD_some]
    rintro ⟨hle, hlt⟩
    exact hout (a - g.addr p) (by omega) (by omega)
  · exact hx

/-! ### Files without holes -/

/-- **The file is a list of values**, from its beginning to its end, without a hole. -/
structure Is (f : SparseFile β) (g : Blocks) (values : List β) : Prop where
  size : f.size = values.length
  cell : ∀ i (hi : i < values.length), f.cell (g.addr i) = some values[i]

theorem is_empty (g : Blocks) : (empty : SparseFile β).Is g [] where
  size := rfl
  cell _ hi := nomatch hi

variable {values more : List β}

/-- **Writing at the end** makes the list longer. -/
theorem Is.write (h : f.Is g values) (blank : β)
    (hperiod : values.length + more.length ≤ g.period) :
    (f.write g blank values.length more).Is g (values ++ more.take (g.room values.length)) where
  size := by
    rw [SparseFile.write, h.size, List.length_append, List.length_take, Nat.min_comm]
    exact Nat.max_eq_right (Nat.le_add_right _ _)
  cell i hi := by
    rw [List.length_append, List.length_take] at hi
    by_cases hlt : i < values.length
    · rw [List.getElem_append_left hlt]
      refine cell_fill_other (h.cell i hlt) fun j hj => ?_
      -- the addresses of different positions are different
      rw [List.length_take] at hj
      have hne := g.addr_ne (p := 0) (i := i) (j := values.length + j) (by omega) (by omega)
      rw [Nat.zero_add, Nat.zero_add, g.addr_add (by omega)] at hne
      exact hne
    · rw [List.getElem_append_right (not_lt.mp hlt)]
      have hroom : (more.take (g.room values.length)).length ≤ g.room values.length := by
        rw [List.length_take]
        exact Nat.min_le_left _ _
      have hin : i - values.length < (more.take (g.room values.length)).length := by
        rw [List.length_take]
        omega
      have hstored := f.cell_fill_at blank hroom hin
      rw [Nat.add_sub_cancel' (not_lt.mp hlt)] at hstored
      exact hstored

/-- **Reading** gives what is there. -/
theorem Is.read (h : f.Is g values) (p count : ℕ) :
    f.read g p count = (values.drop p).take (min count (g.room p)) := by
  have hlen : ((values.drop p).take (min count (g.room p))).length =
      min (min count (f.size - p)) (g.room p) := by
    rw [List.length_take, List.length_drop, h.size]
    omega
  rw [SparseFile.read, ← hlen]
  refine range_eq fun i hi => ?_
  rw [hlen] at hi
  rw [List.getElem_take, List.getElem_drop, ← g.addr_add (by omega)]
  exact h.cell (p + i) (by rw [← h.size]; omega)

end SparseFile

end LinuxProgram.Lib
