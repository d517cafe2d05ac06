import Mathlib

/-!
# Transfers in pieces

A sequence of items is handed over in pieces.  Behind the first `k` items the next `n`
are `piece xs k n`; a transfer that does not go on from there but starts at the front
again hands over the first `n`.

* `append_take_iff` — that is right exactly if the items there are those at the front.
* `fromFront` — all pieces are taken from the front, and `Repeats` says when the result is
  the front of the sequence (`fromFront_eq_iff`); `repeats_all_iff` says when it is for
  all sizes of the pieces.
-/

namespace LinuxProgram.Lib.Pieces

universe u

variable {α : Type u} {xs : List α} {k n : ℕ}

/-- **The `n` items behind the first `k`.** -/
def piece (xs : List α) (k n : ℕ) : List α := (xs.drop k).take n

theorem take_append_piece (xs : List α) (k n : ℕ) : xs.take k ++ piece xs k n = xs.take (k + n) :=
  List.take_add.symm

/-- **The front instead of the next piece.** -/
theorem append_take_iff (h : k + n ≤ xs.length) :
    xs.take k ++ xs.take n <+: xs ↔ piece xs k n = xs.take n := by
  constructor
  · intro hfront
    have hlength : (xs.take k ++ xs.take n).length = k + n := by
      rw [List.length_append, List.length_take, List.length_take]
      omega
    have heq := List.prefix_iff_eq_take.mp hfront
    rw [hlength, ← take_append_piece] at heq
    exact (List.append_cancel_left heq).symm
  · intro heq
    rw [← heq, take_append_piece]
    exact List.take_prefix _ _

/-- **All pieces are taken from the front.** -/
def fromFront (xs : List α) (ns : List ℕ) : List α := ns.flatMap fun n => xs.take n

theorem fromFront_concat (xs : List α) (ns : List ℕ) (n : ℕ) :
    fromFront xs (ns ++ [n]) = fromFront xs ns ++ xs.take n := by
  rw [fromFront, List.flatMap_append, List.flatMap_singleton, fromFront]

/-- **Every piece is the front.** -/
def Repeats (xs : List α) (ns : List ℕ) : Prop :=
  ∀ pre n post, ns = pre ++ n :: post → piece xs pre.sum n = xs.take n

theorem repeats_nil (xs : List α) : Repeats xs [] := by
  intro pre n post h
  cases pre <;> cases h

theorem repeats_concat {ns : List ℕ} :
    Repeats xs (ns ++ [n]) ↔ Repeats xs ns ∧ piece xs ns.sum n = xs.take n := by
  constructor
  · intro h
    refine ⟨fun pre m post hns => h pre m (post ++ [n]) ?_, h ns n [] rfl⟩
    rw [hns, List.append_assoc, List.cons_append]
  · rintro ⟨h, hlast⟩ pre m post hns
    rcases List.eq_nil_or_concat post with rfl | ⟨post', m', rfl⟩
    · obtain ⟨rfl, hm⟩ := List.append_inj' hns rfl
      obtain rfl := List.cons.inj hm |>.1
      exact hlast
    · have hns' : ns ++ [n] = (pre ++ m :: post') ++ [m'] := by
        rw [hns, List.concat_eq_append, List.append_assoc, List.cons_append]
      exact h pre m post' (List.append_inj' hns' rfl).1

/-- **Pieces from the front** are the front exactly if every piece is. -/
theorem fromFront_eq_iff {ns : List ℕ} (h : ns.sum ≤ xs.length) :
    fromFront xs ns = xs.take ns.sum ↔ Repeats xs ns := by
  induction ns using List.reverseRecOn with
  | nil => exact iff_of_true rfl (repeats_nil xs)
  | append_singleton ns n ih =>
      rw [List.sum_append, List.sum_singleton] at h ⊢
      have hlength : ∀ ns : List ℕ, ns.sum ≤ xs.length → (fromFront xs ns).length = ns.sum := by
        intro ns hns
        rw [fromFront, List.length_flatMap]
        congr 1
        refine (List.map_congr_left fun m hm => ?_).trans (List.map_id ns)
        rw [List.length_take, Nat.min_eq_left ((List.le_sum_of_mem hm).trans hns)]
        rfl
      rw [fromFront_concat, repeats_concat, ← ih (by omega), ← take_append_piece]
      constructor
      · intro heq
        have hsum : ns.sum ≤ xs.length := by omega
        have hlen : (fromFront xs ns).length = (xs.take ns.sum).length := by
          rw [hlength ns hsum, List.length_take, Nat.min_eq_left hsum]
        obtain ⟨hfront, hpiece⟩ := List.append_inj heq hlen
        exact ⟨hfront, hpiece.symm⟩
      · rintro ⟨hfront, hpiece⟩
        rw [hfront, hpiece]

/-- **In pieces of any size**, that is right for items that are all the same. -/
theorem repeats_all_iff : (∀ ns : List ℕ, (∀ n ∈ ns, 0 < n) → ns.sum = xs.length → Repeats xs ns) ↔
    ∀ i (hi : i < xs.length), xs[i] = xs[0] := by
  constructor
  · intro h i hi
    rcases Nat.eq_zero_or_pos i with rfl | hpos
    · rfl
    · -- the item is a piece of its own
      have hrepeats : Repeats xs ([i, 1] ++ List.replicate (xs.length - (i + 1)) 1) := by
        refine h _ (fun n hn => ?_) ?_
        · rw [List.mem_append, List.mem_replicate] at hn
          rcases hn with hn | hn
          · rcases List.mem_pair.mp hn with rfl | rfl
            · exact hpos
            · exact Nat.one_pos
          · exact hn.2 ▸ Nat.one_pos
        · rw [List.sum_append, List.sum_replicate, smul_eq_mul, mul_one]
          exact Nat.add_sub_cancel' hi
      have hpiece : piece xs i 1 = xs.take 1 := hrepeats [i] 1 _ rfl
      rw [piece, List.take_one, List.take_one, List.head?_drop, List.head?_eq_getElem?,
        List.getElem?_eq_getElem hi, List.getElem?_eq_getElem (hpos.trans hi)] at hpiece
      exact List.singleton_inj.mp hpiece
  · intro h ns _ hsum pre n post hns
    have hle : pre.sum + n ≤ xs.length := by
      rw [← hsum, hns, List.sum_append, List.sum_cons]
      omega
    apply List.ext_getElem
    · rw [piece, List.length_take, List.length_drop, List.length_take]
      omega
    · intro i _ hi
      rw [List.length_take] at hi
      rw [List.getElem_take, h i (by omega)]
      simp only [piece, List.getElem_take, List.getElem_drop]
      exact h _ _

end LinuxProgram.Lib.Pieces
