import Mathlib

/-!
# Loops that may fail

* `foldlM_range'_getElem?` — a loop that counts an index up, and looks the element there
  up, is a loop over the elements and their indices.
* `mapM_of_forall` — a loop that collects results, none of which fails; `mapM_eq_some_iff`
  and `isSome_mapM` — what it collects, and when.
* `foldlM_append` — a loop that appends a list in every pass.
* `findSome?_eq_some_iff_or` — the element at which a loop stops.
* `foldlM_invariant`, `foldlM_measure` — what every pass keeps, and what grows by one in every pass.
-/

namespace LinuxProgram.Lib

universe u v w

variable {α : Type u} {σ : Type v} {β : Type w}

/-- **A loop over indices** is a loop over the elements there. -/
theorem foldlM_range'_getElem? (f : σ → α → ℕ → Option σ) (pre rest post : List α) (s : σ) :
    (List.range' pre.length rest.length).foldlM
        (fun s i => (pre ++ rest ++ post)[i]?.bind fun x => f s x i) s =
      (rest.zipIdx pre.length).foldlM (fun s e => f s e.1 e.2) s := by
  induction rest generalizing pre s with
  | nil => rfl
  | cons x rest ih =>
      have hentry : (pre ++ x :: rest ++ post)[pre.length]? = some x := by
        rw [List.append_assoc, List.getElem?_append_right le_rfl, Nat.sub_self]
        rfl
      rw [List.length_cons, List.range'_succ, List.foldlM_cons, hentry, Option.bind_some,
        List.zipIdx_cons, List.foldlM_cons]
      congr 1
      funext s'
      have hrest := ih (pre ++ [x]) s'
      rwa [List.length_append, List.length_singleton, ← List.append_cons] at hrest

/-- A loop over all indices. -/
theorem foldlM_range_getElem? (f : σ → α → ℕ → Option σ) (xs : List α) (s : σ) :
    (List.range xs.length).foldlM (fun s i => xs[i]?.bind fun x => f s x i) s =
      xs.zipIdx.foldlM (fun s e => f s e.1 e.2) s := by
  have h := foldlM_range'_getElem? f [] xs [] s
  rw [List.nil_append, List.append_nil] at h
  rw [List.range_eq_range']
  exact h

/-- **No pass fails.** -/
theorem mapM_of_forall {f : α → Option β} {g : α → β} {xs : List α}
    (h : ∀ x ∈ xs, f x = some (g x)) : xs.mapM f = some (xs.map g) := by
  induction xs with
  | nil => rfl
  | cons x xs ih =>
      rw [List.forall_mem_cons] at h
      rw [List.mapM_cons, h.1, ih h.2]
      rfl

/-- **What is collected.** -/
theorem mapM_eq_some_iff {f : α → Option β} {xs : List α} {ys : List β} :
    xs.mapM f = some ys ↔ List.Forall₂ (fun x y => f x = some y) xs ys := by
  induction xs generalizing ys with
  | nil =>
      rw [List.forall₂_nil_left_iff]
      exact Option.some_inj.trans eq_comm
  | cons x xs ih =>
      rw [List.forall₂_cons_left_iff, List.mapM_cons, Option.bind_eq_bind, Option.bind_eq_some_iff]
      refine exists_congr fun y => ?_
      rw [exists_and_left]
      refine and_congr_right fun _ => ?_
      rw [Option.bind_eq_bind, Option.bind_eq_some_iff]
      refine exists_congr fun ys' => ?_
      rw [ih]
      exact and_congr_right fun _ => Option.some_inj.trans eq_comm

/-- **No pass fails**, if something is collected. -/
theorem isSome_mapM {f : α → Option β} {xs : List α} :
    (xs.mapM f).isSome ↔ ∀ x ∈ xs, (f x).isSome := by
  induction xs with
  | nil => exact iff_of_true rfl (List.forall_mem_nil _)
  | cons x xs ih =>
      rw [List.forall_mem_cons, ← ih, List.mapM_cons]
      cases f x with
      | none => exact iff_of_false (fun h => nomatch h) fun h => nomatch h.1
      | some y =>
          rw [Option.isSome_some, eq_self, true_and]
          cases xs.mapM f <;> rfl

/-- **A loop that appends.** -/
theorem foldlM_append {step : List β → α → Option (List β)} {f : α → Option (List β)}
    {xs : List α} (h : ∀ x ∈ xs, ∀ acc, step acc x = (f x).map (acc ++ ·)) (acc : List β) :
    xs.foldlM step acc = (xs.mapM f).map fun ys => acc ++ ys.flatten := by
  induction xs generalizing acc with
  | nil =>
      rw [List.mapM_nil, List.foldlM_nil]
      exact congrArg some (List.append_nil acc).symm
  | cons x xs ih =>
      rw [List.forall_mem_cons] at h
      rw [List.foldlM_cons, List.mapM_cons, h.1]
      cases f x with
      | none => rfl
      | some y =>
          rw [Option.map_some, Option.bind_eq_bind, Option.bind_some, ih h.2]
          cases xs.mapM f with
          | none => rfl
          | some ys => exact congrArg some (List.append_assoc _ _ _)

/-- **An invariant** of the passes. -/
theorem foldlM_invariant {f : σ → α → Option σ} {I : σ → Prop} {xs : List α}
    (hstep : ∀ x ∈ xs, ∀ s s', I s → f s x = some s' → I s') {s s' : σ}
    (h : xs.foldlM f s = some s') (hs : I s) : I s' := by
  induction xs generalizing s with
  | nil =>
      obtain rfl : s = s' := Option.some.inj h
      exact hs
  | cons x xs ih =>
      rw [List.foldlM_cons, Option.bind_eq_bind, Option.bind_eq_some_iff] at h
      obtain ⟨s₁, hx, hxs⟩ := h
      rw [List.forall_mem_cons] at hstep
      exact ih hstep.2 hxs (hstep.1 s s₁ hs hx)

/-- **Every pass adds one.** -/
theorem foldlM_measure {f : σ → α → Option σ} (measure : σ → ℕ)
    (hstep : ∀ s x s', f s x = some s' → measure s' = measure s + 1) {xs : List α} {s s' : σ}
    (h : xs.foldlM f s = some s') : measure s' = measure s + xs.length := by
  induction xs generalizing s with
  | nil =>
      obtain rfl : s = s' := Option.some.inj h
      rfl
  | cons x xs ih =>
      rw [List.foldlM_cons, Option.bind_eq_bind, Option.bind_eq_some_iff] at h
      obtain ⟨s₁, hx, hxs⟩ := h
      rw [ih hxs, hstep _ _ _ hx, List.length_cons]
      omega

/-- **The first element that stops a loop**, if what stops it earlier has the same effect. -/
theorem findSome?_eq_some_iff_or {f : α → Option β} {xs : List α} {v : β} :
    xs.findSome? f = some v ↔ ∃ pre x post, xs = pre ++ x :: post ∧ f x = some v ∧
      ∀ y ∈ pre, f y = none ∨ f y = some v := by
  constructor
  · intro h
    obtain ⟨pre, x, post, hsplit, hx, hpre⟩ := List.findSome?_eq_some_iff.mp h
    exact ⟨pre, x, post, hsplit, hx, fun y hy => .inl (hpre y hy)⟩
  · rintro ⟨pre, x, post, rfl, hx, hpre⟩
    rw [List.findSome?_append, List.findSome?_cons, hx]
    cases hfirst : pre.findSome? f with
    | none => exact Option.none_or
    | some w =>
        obtain ⟨y, hy, hw⟩ := List.exists_of_findSome?_eq_some hfirst
        rcases hpre y hy with hnone | hv
        · rw [hnone] at hw
          nomatch hw
        · rw [Option.some_or, ← hw, hv]

end LinuxProgram.Lib
