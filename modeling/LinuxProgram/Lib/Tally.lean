import LinuxProgram.Lib.SortedMap

/-!
# Look-up, and totals by key

What an ordered map is as a function of the key, and what a loop over a list leaves in
a map that it updates.

* `less` — the comparator of a map that is not given one.
* `SortedMap.find?` — the value at a key; `find?_upsert` says how an update changes it.
* `find?_assign` — a loop that assigns keeps the last value of each key.
* `total` — the total weight of the elements with a key.
* `total_exchange`, `sum_total` — totals for other keys, and the totals of all keys.
-/

namespace LinuxProgram.Lib

universe u v w

/-- **`std::less`**, the comparator that a map has unless it is given one. -/
def less {κ : Type u} [LT κ] [DecidableLT κ] (a b : κ) : Bool := a < b

instance {κ : Type u} [LT κ] [DecidableLT κ] [Std.Irrefl fun a b : κ => a < b]
    [IsTrans κ fun a b => a < b] [Std.Trichotomous fun a b : κ => a < b] :
    ComparatorLaws (@less κ _ _) where
  irrefl a := decide_eq_false (Std.Irrefl.irrefl a)
  trans hab hbc := decide_eq_true (IsTrans.trans _ _ _ (of_decide_eq_true hab)
    (of_decide_eq_true hbc))
  total hab hba := Std.Trichotomous.trichotomous _ _ (of_decide_eq_false hab)
    (of_decide_eq_false hba)

namespace SortedMap

variable {κ : Type u} {β : Type v} {α : Type w} {cmp : κ → κ → Bool}

/-! ### Look-up -/

/-- **The value at a key**, if it is there. -/
def find? (m : SortedMap cmp β) (key : κ) : Option β :=
  (m.entries.find? fun e => !cmp key e.1 && !cmp e.1 key).map Prod.snd

@[simp] theorem find?_empty (key : κ) : (empty : SortedMap cmp β).find? key = none := rfl

variable [ComparatorLaws cmp] {m : SortedMap cmp β} {key k : κ} {value : β}

theorem Split.find?_eq {pre post : List (κ × β)} (h : m.Split pre key value post) :
    m.find? key = some value := by
  have hpre : pre.find? (fun e => !cmp key e.1 && !cmp e.1 key) = none := by
    rw [List.find?_eq_none]
    intro e he
    simp [h.before he]
  have hentries : m.entries = pre ++ (key, value) :: post := h
  rw [find?, hentries, List.find?_append, hpre, Option.none_or, List.find?_cons_of_pos]
  · rfl
  · simp [ComparatorLaws.cmp_self cmp key]

/-- **A value is found** exactly if its entry is there. -/
theorem find?_eq_some_iff : m.find? key = some value ↔ (key, value) ∈ m.entries := by
  constructor
  · intro h
    obtain ⟨e, hfind, rfl⟩ := Option.map_eq_some_iff.mp h
    have hkeys := List.find?_some hfind
    rw [Bool.and_eq_true, Bool.not_eq_true', Bool.not_eq_true'] at hkeys
    rw [ComparatorLaws.total hkeys.1 hkeys.2]
    exact List.mem_of_find?_eq_some hfind
  · intro h
    obtain ⟨pre, post, hsplit⟩ := List.append_of_mem h
    exact Split.find?_eq hsplit

theorem find?_eq_none_of {f : κ × β → Prop} (h : ∀ e ∈ m.entries, f e)
    (hkey : ∀ v, ¬ f (key, v)) : m.find? key = none := by
  rw [Option.eq_none_iff_forall_ne_some]
  intro v hv
  exact hkey v (h _ (find?_eq_some_iff.mp hv))

/-- **An update** changes what is found at its key, and nothing else. -/
theorem find?_upsert [DecidableEq κ] (m : SortedMap cmp β) (key : κ) (dflt : β) (f : β → β)
    (k : κ) : (m.upsert key dflt f).find? k =
      if k = key then some (f ((m.find? key).getD dflt)) else m.find? k := by
  rcases m.upsert_cases key dflt f with
    ⟨pre, value, post, hm, hu⟩ | ⟨pre, post, hm, hpre, hpost, hu⟩
  · split
    · rename_i hk
      rw [hk, hu.find?_eq, hm.find?_eq, Option.getD_some]
    · rename_i hk
      have hentries : m.entries = pre ++ (key, value) :: post := hm
      have hupdated : (m.upsert key dflt f).entries = pre ++ (key, f value) :: post := hu
      apply Option.ext
      intro v
      rw [find?_eq_some_iff, find?_eq_some_iff, hentries, hupdated]
      simp [hk]
  · have hnone : m.find? key = none := by
      refine find?_eq_none_of (f := fun e => cmp e.1 key = true ∨ cmp key e.1 = true) ?_ ?_
      · intro e he
        rw [hm, List.mem_append] at he
        exact he.imp (hpre e) (hpost e)
      · intro v
        simp [ComparatorLaws.cmp_self cmp key]
    split
    · rename_i hk
      rw [hk, hu.find?_eq, hnone, Option.getD_none]
    · rename_i hk
      have hupdated : (m.upsert key dflt f).entries = pre ++ (key, f dflt) :: post := hu
      apply Option.ext
      intro v
      rw [find?_eq_some_iff, find?_eq_some_iff, hm, hupdated]
      simp [hk]

/-- `operator[]` at a key that is there. -/
theorem upsert_id (h : m.find? key = some value) (dflt : β) : m.upsert key dflt id = m := by
  rcases m.upsert_cases key dflt id with ⟨pre, v, post, hm, hu⟩ | ⟨pre, post, hm, hpre, hpost, -⟩
  · ext1
    exact Eq.trans hu (Eq.symm hm)
  · have hmem := find?_eq_some_iff.mp h
    rw [hm, List.mem_append] at hmem
    have hself := ComparatorLaws.cmp_self cmp key
    rcases hmem with hmem | hmem
    · exact absurd (hpre _ hmem) (by simp [hself])
    · exact absurd (hpost _ hmem) (by simp [hself])

/-- **A loop that assigns** keeps the last value of each key. -/
theorem find?_assign [DecidableEq κ] (key : α → κ) (value : α → β) (dflt : β) (xs : List α)
    (m : SortedMap cmp β) (k : κ) :
    (xs.foldl (fun m x => m.upsert (key x) dflt fun _ => value x) m).find? k =
      ((xs.reverse.find? fun x => key x = k).map value).or (m.find? k) := by
  induction xs generalizing m with
  | nil => rfl
  | cons x xs ih =>
      rw [List.foldl_cons, ih, find?_upsert, List.reverse_cons, List.find?_append, Option.map_or,
        Option.or_assoc]
      congr 1
      by_cases hk : key x = k
      · simp [hk]
      · simp [hk, Ne.symm hk]

end SortedMap

section Keys

variable {α : Type u} {κ : Type v} [DecidableEq κ] {key : α → κ} {xs : List α} {x : α} {k : κ}

/-- **The element with a key**, in a list where no two have one in common. -/
theorem find?_key_iff (h : (xs.map key).Nodup) :
    xs.find? (fun x => key x = k) = some x ↔ x ∈ xs ∧ key x = k := by
  constructor
  · intro hx
    exact ⟨List.mem_of_find?_eq_some hx, by simpa only [decide_eq_true_eq] using List.find?_some hx⟩
  · rintro ⟨hx, hkey⟩
    have hsome : (xs.find? fun x => key x = k).isSome := by
      rw [List.find?_isSome]
      exact ⟨x, hx, decide_eq_true hkey⟩
    obtain ⟨y, hy⟩ := Option.isSome_iff_exists.mp hsome
    have hkey' : key y = k := by simpa only [decide_eq_true_eq] using List.find?_some hy
    rw [hy, List.inj_on_of_nodup_map h (List.mem_of_find?_eq_some hy) hx (hkey'.trans hkey.symm)]

/-- The last element with a key is the first one. -/
theorem find?_reverse (h : (xs.map key).Nodup) (k : κ) :
    xs.reverse.find? (fun x => key x = k) = xs.find? fun x => key x = k := by
  have hreverse : (xs.reverse.map key).Nodup := by rwa [List.map_reverse, List.nodup_reverse]
  apply Option.ext
  intro x
  rw [find?_key_iff hreverse, find?_key_iff h, List.mem_reverse]

end Keys

/-! ### Totals -/

section Total

variable {α : Type u} {κ : Type v} [DecidableEq κ] {μ : Type w} [AddCommMonoid μ]
variable (key key' : α → Option κ) (weight : α → μ)

/-- **The total weight** of the elements with a key. -/
def total (xs : List α) (k : κ) : μ := ((xs.filter fun x => key x = some k).map weight).sum

@[simp] theorem total_nil (k : κ) : total key weight [] k = 0 := rfl

@[simp] theorem total_cons (x : α) (xs : List α) (k : κ) : total key weight (x :: xs) k =
    (if key x = some k then weight x else 0) + total key weight xs k := by
  by_cases h : key x = some k
  · simp [total, h]
  · simp [total, h]

theorem total_append (xs ys : List α) (k : κ) :
    total key weight (xs ++ ys) k = total key weight xs k + total key weight ys k := by
  rw [total, List.filter_append, List.map_append, List.sum_append]
  rfl

/-- **Two ways to give keys** differ by what is moved from one key to another. -/
theorem total_exchange (xs : List α) (k : κ) :
    total key weight xs k + total key' weight (xs.filter fun x => key x ≠ some k) k =
      total key' weight xs k + total key weight (xs.filter fun x => key' x ≠ some k) k := by
  induction xs with
  | nil => rfl
  | cons x xs ih =>
      by_cases hkey : key x = some k <;> by_cases hkey' : key' x = some k
      · simpa [hkey, hkey', add_assoc] using congrArg (weight x + ·) ih
      · simpa [hkey, hkey', add_assoc, add_left_comm] using congrArg (weight x + ·) ih
      · simpa [hkey, hkey', add_assoc, add_left_comm] using congrArg (weight x + ·) ih
      · simpa [hkey, hkey'] using ih

/-- **The totals of all keys** add up to the weight of all elements, if each has one of the keys. -/
theorem sum_total (keys : Finset κ) {xs : List α} (h : ∀ x ∈ xs, ∃ k ∈ keys, key x = some k) :
    ∑ k ∈ keys, total key weight xs k = (xs.map weight).sum := by
  induction xs with
  | nil => simp
  | cons x xs ih =>
      rw [List.forall_mem_cons] at h
      obtain ⟨⟨k, hk, hkey⟩, hxs⟩ := h
      simp only [total_cons, Finset.sum_add_distrib, ih hxs, hkey, Option.some_inj,
        Finset.sum_ite_eq, if_pos hk, List.map_cons, List.sum_cons]

end Total

namespace SortedMap

variable {κ : Type u} {β : Type v} [DecidableEq κ] {cmp : κ → κ → Bool} [ComparatorLaws cmp]

/-- The keys of a map. -/
def keys (m : SortedMap cmp β) : Finset κ := (m.entries.map Prod.fst).toFinset

theorem find?_eq_none {m : SortedMap cmp β} {k : κ} (h : k ∉ m.keys) : m.find? k = none := by
  rw [Option.eq_none_iff_forall_ne_some]
  intro v hv
  refine h (List.mem_toFinset.mpr ?_)
  exact List.mem_map_of_mem (f := Prod.fst) (find?_eq_some_iff.mp hv)

/-- **The sum over the entries** of a map is a sum over its keys. -/
theorem sum_entries {μ : Type w} [AddCommMonoid μ] (m : SortedMap cmp β) {weight : β → μ}
    {g : κ → μ} (h : ∀ k v, m.find? k = some v → weight v = g k) :
    (m.entries.map fun e => weight e.2).sum = ∑ k ∈ m.keys, g k := by
  have hnodup : (m.entries.map Prod.fst).Nodup := by
    rw [List.Nodup, List.pairwise_map]
    exact m.sorted.imp fun h => ComparatorLaws.ne_of_cmp h
  rw [keys, List.sum_toFinset g hnodup, List.map_map]
  congr 1
  apply List.map_congr_left
  intro e he
  exact h e.1 e.2 (find?_eq_some_iff.mpr he)

end SortedMap

end LinuxProgram.Lib
