import LinuxProgram.Lib.LinearExtension

/-!
# The metafunctions of Typelist.hpp

A `TypeList` is a list of types.  `Map`, `Filter` and `FoldL` are `List.map`, `List.filter`
and `List.foldl`, and `Concat` of two lists is `++`.

* `partition`, `sort`, `elem`, `unique`, `findBy` — the metafunctions.
* `sort_perm`, `sort_respects` — `Sort` takes the head as pivot.  It sorts by any strict
  order, also where not all types are comparable.
* `mem_unique`, `nodup_unique` — `Unique` keeps every type once.
-/

namespace LinuxProgram.MetaProgram.TypeList

open Lib

variable {α : Type*}

/-- **`Partition`**, with the accumulators `S` and `R`: the types for which the predicate holds and
the rest, both in the order they had. -/
def partition (P : α → Bool) : List α → List α → List α → List α × List α
  | [], S, R => (S, R)
  | H :: Ts, S, R => if P H then partition P Ts (S ++ [H]) R else partition P Ts S (R ++ [H])

theorem partition_eq (P : α → Bool) (l S R : List α) :
    partition P l S R = (S ++ l.filter P, R ++ l.filter fun x => !P x) := by
  induction l generalizing S R with
  | nil => simp [partition]
  | cons H Ts ih =>
      rw [partition]
      cases hP : P H <;> simp [ih, hP]

/-- **`Sort`**, a quicksort whose pivot is the head.  The types that compare smaller than it go in
front, and all others, also those that do not compare with it at all, behind it. -/
def sort (CMP : α → α → Bool) : List α → List α
  | [] => []
  | H :: Ts =>
      let P := partition (fun E => CMP E H) Ts [] []
      sort CMP P.1 ++ [H] ++ sort CMP P.2
termination_by l => l.length
decreasing_by
  all_goals
    rw [partition_eq, List.nil_append, List.length_cons]
    exact Nat.lt_succ_of_le (List.length_filter_le _ _)

/-- **`Elem`**, whether a type is one of the list. -/
def elem [DecidableEq α] (l : List α) (E : α) : Bool := l.any fun T => decide (E = T)

/-- **`Unique`**, a left fold that keeps the first of equal types. -/
def unique [DecidableEq α] (l : List α) : List α :=
  l.foldl (fun ACC E => if elem ACC E then ACC else ACC ++ [E]) []

/-- **`FindBy`**, the first type for which the predicate holds.  `Nil`, the type that stands for
nothing, is `none`. -/
def findBy (F : α → Bool) : List α → Option α
  | [] => none
  | H :: Ts => if F H then some H else findBy F Ts

variable {CMP : α → α → Bool} {l : List α} {x : α}

/-! ### Sort -/

theorem sort_cons (H : α) (Ts : List α) :
    sort CMP (H :: Ts) =
      sort CMP (Ts.filter fun E => CMP E H) ++ [H] ++ sort CMP (Ts.filter fun E => !CMP E H) := by
  rw [sort, partition_eq, List.nil_append, List.nil_append]

/-- `Sort` keeps every type, as often as it is there. -/
theorem sort_perm (CMP : α → α → Bool) (l : List α) : (sort CMP l).Perm l := by
  induction l using sort.induct CMP with
  | case1 => rw [sort]
  | case2 H Ts P ihS ihR =>
      rw [sort, show partition (fun E => CMP E H) Ts [] [] = P from rfl]
      have hP : P = (Ts.filter fun E => CMP E H, Ts.filter fun E => !CMP E H) :=
        partition_eq _ _ _ _
      refine ((ihS.append_right [H]).append ihR).trans ?_
      rw [hP, List.append_assoc]
      exact List.perm_middle.trans ((List.filter_append_perm _ Ts).cons H)

/-- **The sorted list respects the order**: no type comes behind one that it is smaller than.  The
comparator has to be the order only on the types of the list. -/
theorem sort_respects {r : α → α → Prop} [IsTrans α r] [Std.Irrefl r]
    (hCMP : ∀ E ∈ l, ∀ H ∈ l, CMP E H = true ↔ r E H) : Respects r (sort CMP l) := by
  induction l using sort.induct CMP with
  | case1 =>
      rw [sort]
      exact .nil
  | case2 H Ts P ihS ihR =>
      have hP : P = (Ts.filter fun E => CMP E H, Ts.filter fun E => !CMP E H) :=
        partition_eq _ _ _ _
      rw [hP] at ihS ihR
      have hTs : ∀ E ∈ Ts, (CMP E H = true ↔ r E H) := fun E hE =>
        hCMP E (.tail _ hE) H (.head _)
      have hsub : ∀ p : α → Bool, ∀ E ∈ Ts.filter p, ∀ F ∈ Ts.filter p, CMP E F = true ↔ r E F :=
        fun p E hE F hF => hCMP E (.tail _ (List.mem_of_mem_filter hE)) F
          (.tail _ (List.mem_of_mem_filter hF))
      rw [sort_cons]
      refine Respects.pivot (ihS (hsub _)) (ihR (hsub _)) ?_ ?_
      · intro E hE
        obtain ⟨hmem, hlt⟩ := List.mem_filter.mp ((sort_perm _ _).mem_iff.mp hE)
        exact (hTs E hmem).mp hlt
      · intro E hE hlt
        obtain ⟨hmem, hrest⟩ := List.mem_filter.mp ((sort_perm _ _).mem_iff.mp hE)
        rw [(hTs E hmem).mpr hlt] at hrest
        nomatch hrest

/-! ### Unique and FindBy -/

section Eq

variable [DecidableEq α]

theorem elem_iff : elem l x = true ↔ x ∈ l := by
  simp [elem]

/-- What `Unique` has after some types. -/
theorem unique_concat (l : List α) (E : α) :
    unique (l ++ [E]) = if elem (unique l) E then unique l else unique l ++ [E] := by
  rw [unique, List.foldl_append]
  rfl

/-- `Unique` leaves the types that are there. -/
@[simp] theorem mem_unique : x ∈ unique l ↔ x ∈ l := by
  induction l using List.reverseRecOn with
  | nil => rfl
  | append_singleton l E ih =>
      rw [unique_concat, List.mem_append, List.mem_singleton]
      split
      · rename_i hE
        rw [elem_iff] at hE
        rw [← ih]
        constructor
        · exact .inl
        · rintro (hx | rfl)
          · exact hx
          · exact hE
      · rw [List.mem_append, List.mem_singleton, ih]

/-- And it leaves each of them once. -/
theorem nodup_unique (l : List α) : (unique l).Nodup := by
  induction l using List.reverseRecOn with
  | nil => exact List.nodup_nil
  | append_singleton l E ih =>
      rw [unique_concat]
      split
      · exact ih
      · rename_i hE
        rw [elem_iff] at hE
        refine List.nodup_append.mpr ⟨ih, List.nodup_singleton _, ?_⟩
        intro a ha b hb
        rw [List.mem_singleton.mp hb]
        rintro rfl
        exact hE ha

end Eq

theorem findBy_eq (F : α → Bool) (l : List α) : findBy F l = l.find? F := by
  induction l with
  | nil => rfl
  | cons H Ts ih =>
      rw [findBy, ih]
      cases hF : F H
      · rw [List.find?_cons_of_neg (by rw [hF]; nofun)]
        rfl
      · rw [List.find?_cons_of_pos hF]
        rfl

end LinuxProgram.MetaProgram.TypeList
