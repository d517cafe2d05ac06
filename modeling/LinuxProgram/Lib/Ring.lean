import Mathlib

/-!
# Rings of links

A partial function links each place to the next one.  It is a ring over a list of places
if each is linked to the one behind it, and the last to the first.

* `IsRing` — the links are the cyclic permutation of the list.
* `walk` — following the links; `IsRing.exists_walk` says that a walk from any place of a ring
  passes each place once and comes back.
* `linkSeq`, `isRing_linkSeq` — a ring that is made link by link.
-/

namespace LinuxProgram.Lib.Ring

universe u

variable {α : Type u}

/-- **Following the links** from a place, `n` times: the places passed and where it ends. -/
def walk (next : α → Option α) : ℕ → α → Option (List α × α)
  | 0, a => some ([], a)
  | n + 1, a => (next a).bind fun b => (walk next n b).map fun r => (a :: r.1, r.2)

variable [DecidableEq α] {next : α → Option α} {l : List α} {a b x : α}

/-- **A ring** over a list of places. -/
def IsRing (next : α → Option α) (l : List α) : Prop := ∀ x ∈ l, next x = some (l.formPerm x)

/-! ### Walks -/

theorem IsRing.walk_eq (h : IsRing next l) (n : ℕ) (hx : x ∈ l) :
    walk next n x =
      some ((List.range n).map fun k => (l.formPerm ^ k) x, (l.formPerm ^ n) x) := by
  induction n generalizing x with
  | zero => rfl
  | succ n ih =>
      have hnext : l.formPerm x ∈ l := List.formPerm_mem_iff_mem.mpr hx
      have hpow : ∀ k, (l.formPerm ^ k) (l.formPerm x) = (l.formPerm ^ (k + 1)) x := fun k => by
        rw [pow_succ, Equiv.Perm.mul_apply]
      rw [walk, h x hx, Option.bind_some, ih hnext, Option.map_some, hpow, List.range_succ_eq_map,
        List.map_cons, List.map_map, pow_zero, Equiv.Perm.one_apply]
      simp only [hpow, Function.comp_def, Nat.succ_eq_add_one]

/-- The places behind a place, around the ring. -/
theorem map_pow_eq_rotate (hl : l.Nodup) (i : ℕ) (hi : i < l.length) :
    ((List.range l.length).map fun k => (l.formPerm ^ k) l[i]) = l.rotate i := by
  apply List.ext_getElem
  · rw [List.length_map, List.length_range, List.length_rotate]
  · intro k _ _
    rw [List.getElem_map, List.getElem_range, List.formPerm_pow_apply_getElem _ hl,
      List.getElem_rotate]
    congr 2
    exact Nat.add_comm i k

/-- **A walk around a ring** passes each place once and ends where it began. -/
theorem IsRing.exists_walk (h : IsRing next l) (hl : l.Nodup) (hx : x ∈ l) :
    ∃ passed, walk next l.length x = some (passed, x) ∧ passed.Perm l := by
  obtain ⟨i, hi, rfl⟩ := List.getElem_of_mem hx
  refine ⟨l.rotate i, ?_, List.rotate_perm l i⟩
  have hback : (l.formPerm ^ l.length) l[i] = l[i] := by
    rw [List.formPerm_pow_apply_getElem _ hl]
    simp only [Nat.add_mod_right, Nat.mod_eq_of_lt hi]
  rw [h.walk_eq l.length hx, map_pow_eq_rotate hl, hback]

/-! ### Link by link -/

/-- **Links along a list**: from `a` to the first, and from each to the one behind it. -/
def linkSeq (next : α → Option α) (a : α) : List α → α → Option α
  | [] => next
  | b :: l => linkSeq (Function.update next a (some b)) b l

/-- A place that is neither `a` nor on the list keeps its link. -/
theorem linkSeq_of_notMem (h : x ∉ a :: l) : linkSeq next a l x = next x := by
  induction l generalizing next a with
  | nil => rfl
  | cons b l ih =>
      rw [List.mem_cons, not_or] at h
      rw [linkSeq, ih h.2, Function.update_of_ne h.1]

theorem linkSeq_getElem (hl : (a :: l).Nodup) (i : ℕ) (hi : i < l.length)
    (hi' : i < (a :: l).length) : linkSeq next a l (a :: l)[i] = some l[i] := by
  induction l generalizing next a i with
  | nil => nomatch hi
  | cons b l ih =>
      rw [List.nodup_cons] at hl
      cases i with
      | zero =>
          rw [linkSeq, List.getElem_cons_zero, List.getElem_cons_zero, linkSeq_of_notMem hl.1,
            Function.update_self]
      | succ i =>
          rw [linkSeq]
          exact ih hl.2 i (Nat.lt_of_succ_lt_succ hi) (Nat.lt_of_succ_lt_succ hi')

/-- **The last link closes the ring.** -/
theorem isRing_linkSeq (hl : (a :: l).Nodup) :
    IsRing (Function.update (linkSeq next a l) ((a :: l).getLast (List.cons_ne_nil a l)) (some a))
      (a :: l) := by
  intro x hx
  obtain ⟨i, hi, rfl⟩ := List.getElem_of_mem hx
  rw [List.formPerm_apply_getElem _ hl, List.getLast_eq_getElem]
  have hlength : (a :: l).length = l.length + 1 := rfl
  rcases (Nat.le_of_lt_succ hi).lt_or_eq with hlt | heq
  · -- not the last place
    have hne : (a :: l)[i] ≠ (a :: l)[(a :: l).length - 1] := by
      rw [ne_eq, hl.getElem_inj_iff]
      omega
    rw [Function.update_of_ne hne, linkSeq_getElem hl i hlt hi]
    simp only [hlength, Nat.mod_eq_of_lt (Nat.succ_lt_succ hlt), List.getElem_cons_succ]
  · subst heq
    simp only [hlength, Nat.add_sub_cancel, Function.update_self, Nat.mod_self,
      List.getElem_cons_zero]

end LinuxProgram.Lib.Ring
