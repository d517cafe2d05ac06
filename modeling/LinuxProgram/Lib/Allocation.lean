import Mathlib

/-!
# Blocks that share a space

An allocator hands out blocks, each of which takes some cells of a common space.
What is handed out is a list `live` of blocks; `cells b` are the cells of a block.

* `occupied` — the cells that are taken.
* `Separate` — no cell is taken twice.
* `Separate.cons` and `Separate.erase` — acquiring a block of free cells and
  releasing a block keep the blocks separate, and `occupied_cons` and
  `Separate.occupied_erase` say which cells are taken then.
* `Separate.card_occupied` — their number.
-/

namespace LinuxProgram.Lib.Allocation

universe u v

variable {β : Type u} {ι : Type v} [DecidableEq ι] {cells : β → Finset ι} {live : List β} {b : β}

/-- **The cells that are taken.** -/
def occupied (cells : β → Finset ι) (live : List β) : Finset ι :=
  live.foldr (fun b taken => cells b ∪ taken) ∅

/-- **No cell is taken twice.** -/
def Separate (cells : β → Finset ι) (live : List β) : Prop :=
  live.Pairwise fun a b => Disjoint (cells a) (cells b)

@[simp] theorem occupied_nil : occupied cells [] = ∅ := rfl

@[simp] theorem occupied_cons : occupied cells (b :: live) = cells b ∪ occupied cells live := rfl

theorem mem_occupied {i : ι} : i ∈ occupied cells live ↔ ∃ b ∈ live, i ∈ cells b := by
  induction live with
  | nil => simp
  | cons b live ih => simp [ih]

/-- A block is free if it is disjoint from every block that is taken. -/
theorem disjoint_occupied :
    Disjoint (cells b) (occupied cells live) ↔ ∀ a ∈ live, Disjoint (cells b) (cells a) := by
  induction live with
  | nil => simp
  | cons a live ih => simp [Finset.disjoint_union_right, ih]

omit [DecidableEq ι] in
theorem separate_nil : Separate cells [] := List.Pairwise.nil

/-- **Acquiring free cells** keeps the blocks separate. -/
theorem Separate.cons (h : Separate cells live) (hfree : Disjoint (cells b) (occupied cells live)) :
    Separate cells (b :: live) :=
  List.Pairwise.cons (disjoint_occupied.mp hfree) h

/-- **The number of cells that are taken** is the sum over the blocks, since none is counted
twice. -/
theorem Separate.card_occupied (h : Separate cells live) :
    (occupied cells live).card = (live.map fun b => (cells b).card).sum := by
  induction live with
  | nil => rfl
  | cons b live ih =>
      obtain ⟨hb, hlive⟩ := List.pairwise_cons.mp h
      rw [occupied_cons, Finset.card_union_of_disjoint (disjoint_occupied.mpr hb), ih hlive,
        List.map_cons, List.sum_cons]

section Erase

variable [DecidableEq β]

omit [DecidableEq ι] in
/-- **Releasing a block** keeps the others separate. -/
theorem Separate.erase (h : Separate cells live) (b : β) : Separate cells (live.erase b) :=
  List.Pairwise.sublist List.erase_sublist h

/-- When a block is released, its cells become free and no others do. -/
theorem Separate.occupied_erase (h : Separate cells live) (hb : b ∈ live) :
    occupied cells (live.erase b) = occupied cells live \ cells b := by
  have hperm : (b :: live.erase b).Perm live := (List.perm_cons_erase hb).symm
  have hsep : Separate cells (b :: live.erase b) :=
    hperm.symm.pairwise h fun h => h.symm
  have hocc : occupied cells live = cells b ∪ occupied cells (live.erase b) := by
    ext i
    rw [← occupied_cons, mem_occupied, mem_occupied]
    exact exists_congr fun a => and_congr_left' hperm.mem_iff.symm
  rw [hocc, Finset.union_sdiff_cancel_left
    (disjoint_occupied.mpr (List.pairwise_cons.mp hsep).1)]

end Erase

end LinuxProgram.Lib.Allocation
